import Mathlib.Tactic.Common

/-! Role-based authorization of an authenticated caller. -/
namespace BashfulDB.Auth

inductive Role
  | serverAdmin
  | tenantAdmin
  | databaseAdmin
  | readWrite
  | readOnly
  deriving DecidableEq, Repr

inductive Action
  | read
  | create
  | update
  | delete
  | createIndex
  | dropIndex
  | createDatabase
  | dropDatabase
  | createCollection
  | dropCollection
  | manageUsers
  | manageCluster
  deriving DecidableEq, Repr

def Action.debug : Action → String
  | .read => "Read"
  | .create => "Create"
  | .update => "Update"
  | .delete => "Delete"
  | .createIndex => "CreateIndex"
  | .dropIndex => "DropIndex"
  | .createDatabase => "CreateDatabase"
  | .dropDatabase => "DropDatabase"
  | .createCollection => "CreateCollection"
  | .dropCollection => "DropCollection"
  | .manageUsers => "ManageUsers"
  | .manageCluster => "ManageCluster"

def Role.permits : Role → Action → Bool
  | .serverAdmin, _ => true
  | .tenantAdmin, action => action ≠ .manageCluster
  | .databaseAdmin, .read | .databaseAdmin, .create | .databaseAdmin, .update
  | .databaseAdmin, .delete | .databaseAdmin, .createIndex | .databaseAdmin, .dropIndex
  | .databaseAdmin, .createCollection | .databaseAdmin, .dropCollection
  | .databaseAdmin, .createDatabase | .databaseAdmin, .dropDatabase => true
  | .databaseAdmin, _ => false
  | .readWrite, .read | .readWrite, .create | .readWrite, .update | .readWrite, .delete => true
  | .readWrite, _ => false
  | .readOnly, action => action = .read

/-- A scope; `none` stands for everything at that level. -/
structure Resource where
  tenant : Option String
  database : Option String
  collection : Option String

def Resource.ofCollection (tenant db coll : String) : Resource := ⟨some tenant, some db, some coll⟩

def Resource.display : Resource → String
  | ⟨none, _, _⟩ => "cluster"
  | ⟨some t, none, _⟩ => "tenant:" ++ t
  | ⟨some t, some d, none⟩ => "tenant:" ++ t ++ "/db:" ++ d
  | ⟨some t, some d, some c⟩ => "tenant:" ++ t ++ "/db:" ++ d ++ "/coll:" ++ c

/-- What a verified token says about its bearer. -/
structure Claims where
  tenant : Option String
  roles : List Role

inductive AuthError
  | invalidCredentials
  | tokenExpired
  | invalidToken (reason : String)
  | tokenRevoked
  | permissionDenied (action : Action) (resource : String)
  | userNotFound (username : String)
  | userAlreadyExists (username : String)
  | weakPassword (reason : String)
  | internal (message : String)
  deriving DecidableEq

/-- `RbacAuthorizer::check`: anyone but a server admin stays within the tenant of the token. -/
def check (claims : Claims) (action : Action) (resource : Resource) : Except AuthError Unit :=
  let denied := .error (.permissionDenied action resource.display)
  let permitted := if claims.roles.any (·.permits action) then .ok () else denied
  if claims.roles.contains .serverAdmin then permitted
  else
    match claims.tenant, resource.tenant with
    | some claimsTenant, some resourceTenant =>
      if claimsTenant = resourceTenant then permitted else denied
    | _, _ => denied

/-- Who passes the check: the roles permit the action, within the tenant of the token or as a
server admin. -/
theorem check_eq_ok {claims : Claims} {action : Action} {resource : Resource} :
    check claims action resource = .ok () ↔
      (∃ role ∈ claims.roles, role.permits action = true) ∧
        (.serverAdmin ∈ claims.roles ∨ ∃ tenant, claims.tenant = some tenant ∧
          resource.tenant = some tenant) := by
  have hpermitted : (if claims.roles.any (·.permits action) then Except.ok () else
      .error (.permissionDenied action resource.display) : Except AuthError Unit) = .ok () ↔
        ∃ role ∈ claims.roles, role.permits action = true := by
    rw [← List.any_eq_true]
    split <;> simp_all
  unfold check
  by_cases hadmin : .serverAdmin ∈ claims.roles
  · simp only [List.contains_iff_mem, hadmin, if_true, true_or, and_true]
    exact hpermitted
  · simp only [List.contains_iff_mem, hadmin, if_false, false_or]
    cases claims.tenant with
    | none => simp
    | some tenant =>
      cases resource.tenant with
      | none => simp
      | some other =>
        by_cases heq : tenant = other
        · simp only [heq, if_true, Option.some.injEq, exists_eq_left', and_true]
          exact hpermitted
        · simp [heq, Ne.symm heq]

end BashfulDB.Auth
