import BashfulDB.Auth.Rbac
import BashfulDB.Library.Codec
import BashfulDB.Library.Table
import BashfulDB.Storage.Engine

/-! The users and their roles, as rows of the storage engine. -/
namespace BashfulDB.Auth

open Storage

/-- What `prefix_end` makes of the bytes from the last one on: the last byte below 0xFF goes up, and
those after it go. -/
def raiseLast : Bytes → Bytes
  | [] => []
  | b :: rest => if b ≠ 0xFF then (b + 1) :: rest else raiseLast rest

def prefixEnd (start : Bytes) : Bytes := (raiseLast start.reverse).reverse

/-- The loop of `prefix_end` as it runs, with the indices below its argument still to come. A byte
that it raises is below 0xFF, so that the addition does not saturate. -/
def prefixEndFrom (start : Bytes) : Nat → Bytes
  | 0 => []
  | idx + 1 =>
    if start.getD idx 0 ≠ 0xFF then (start.set idx (start.getD idx 0 + 1)).take (idx + 1)
    else prefixEndFrom start idx

structure StoredUser where
  userId : String
  username : String
  tenant : Option String
  passwordHash : String
  deriving DecidableEq

structure StoredRoles where
  roles : List Role
  deriving DecidableEq

/-- The functions of other libraries: `serde_json` for the two kinds of records, and Argon2. -/
structure AuthLibs where
  userToVec : StoredUser → Bytes
  userFromSlice : Bytes → Except String StoredUser
  rolesToVec : StoredRoles → Bytes
  rolesFromSlice : Bytes → Except String StoredRoles
  /-- The salt, then the password. -/
  hashPassword : String → String → Except String String
  /-- The password, then the hash. -/
  verifyPassword : String → String → Bool
  userFromSlice_toVec : ∀ user, userFromSlice (userToVec user) = .ok user
  rolesFromSlice_toVec : ∀ roles, rolesFromSlice (rolesToVec roles) = .ok roles

def userKeyPrefix : String := "auth/users/"

def roleKeyPrefix : String := "auth/roles/"

def userKey (userId : String) : Bytes := (userKeyPrefix ++ userId).asBytes

def roleKey (userId : String) : Bytes := (roleKeyPrefix ++ userId).asBytes

/-- No character of a column family is escaped by `Debug`. -/
def mapStorageError : StorageError → AuthError
  | .unknownColumnFamily name =>
    .internal ("storage error: unknown column family: \"" ++ name ++ "\"")

def deserializeJson {α : Type} (decoded : Except String α) (subject : String) :
    Except AuthError α :=
  decoded.mapError fun err => .internal ("failed to decode " ++ subject ++ ": " ++ err)

def scanPrefix (e : MemEngine) (start : String) : Except AuthError (List (Bytes × Bytes)) :=
  (e.scan ColumnFamily.system.name start.asBytes (prefixEnd start.asBytes)).mapError mapStorageError

namespace AuthLibs

variable (libs : AuthLibs)

def decodeUser (value : Bytes) : Except AuthError StoredUser :=
  deserializeJson (libs.userFromSlice value) "stored user"

/-- The loop of `find_user_by_username`. -/
def findIn (username : String) : List (Bytes × Bytes) → Except AuthError (Option StoredUser)
  | [] => .ok none
  | (_, value) :: rows => do
    let user ← libs.decodeUser value
    if user.username = username then .ok (some user) else findIn username rows

def findUserByUsername (e : MemEngine) (username : String) :
    Except AuthError (Option StoredUser) := do
  let rows ← scanPrefix e userKeyPrefix
  libs.findIn username rows

def findUserById (e : MemEngine) (userId : String) : Except AuthError (Option StoredUser) := do
  let bytes ← (e.get ColumnFamily.system.name (userKey userId)).mapError mapStorageError
  match bytes with
  | some value => return some (← libs.decodeUser value)
  | none => return none

def getRoles (e : MemEngine) (userId : String) : Except AuthError (List Role) := do
  let bytes ← (e.get ColumnFamily.system.name (roleKey userId)).mapError mapStorageError
  match bytes with
  | some value =>
    let stored ← deserializeJson (libs.rolesFromSlice value) "stored roles"
    return stored.roles
  | none => .error (.userNotFound userId)

/-- The loop of `non_server_admin_exists_for_tenant`. -/
def tenantIn (e : MemEngine) (tenant : String) : List (Bytes × Bytes) → Except AuthError Bool
  | [] => .ok false
  | (_, value) :: rows => do
    let user ← libs.decodeUser value
    if user.tenant ≠ some tenant then tenantIn e tenant rows
    else do
      let roles ← libs.getRoles e user.userId
      if !roles.contains .serverAdmin then .ok true else tenantIn e tenant rows

def nonServerAdminExistsForTenant (e : MemEngine) (tenant : String) : Except AuthError Bool := do
  let rows ← scanPrefix e userKeyPrefix
  libs.tenantIn e tenant rows

def persistUserAndRoles (e : MemEngine) (user : StoredUser) (roles : StoredRoles) :
    Except AuthError Unit × MemEngine :=
  let batch : WriteBatch :=
    [.put ColumnFamily.system.name (userKey user.userId) (libs.userToVec user),
      .put ColumnFamily.system.name (roleKey user.userId) (libs.rolesToVec roles)]
  let (written, e) := e.writeBatch batch
  (written.mapError mapStorageError, e)

end AuthLibs

section PrefixEnd

theorem prefixEnd_append (start : Bytes) (b : UInt8) :
    prefixEnd (start ++ [b]) = if b ≠ 0xFF then start ++ [b + 1] else prefixEnd start := by
  rw [prefixEnd, List.reverse_append, List.reverse_singleton, List.singleton_append, raiseLast]
  split
  · simp
  · rfl

theorem prefixEndFrom_eq {start : Bytes} {n : Nat} (hn : n ≤ start.length) :
    prefixEndFrom start n = prefixEnd (start.take n) := by
  induction n with
  | zero => rfl
  | succ idx ih =>
    have hidx : idx < start.length := hn
    have hget : start.getD idx 0 = start[idx] := by simp [hidx]
    have hlast : start.take (idx + 1) = start.take idx ++ [start[idx]] := by
      rw [List.take_add_one, List.getElem?_eq_getElem hidx, Option.toList_some]
    have hset (b : UInt8) : (start.set idx b).take (idx + 1) = start.take idx ++ [b] := by
      rw [List.take_add_one, List.getElem?_set_self hidx, List.take_set_of_le (le_refl idx),
        Option.toList_some]
    rw [prefixEndFrom, ih (by omega), hset, hlast, prefixEnd_append, hget]

/-- The loop from the last index down makes the end. -/
theorem prefixEndFrom_length (start : Bytes) :
    prefixEndFrom start start.length = prefixEnd start := by
  rw [prefixEndFrom_eq le_rfl, List.take_length]

example : prefixEndFrom [0x61, 0xFF] 2 = [0x62] ∧ prefixEndFrom [0xFF, 0xFF] 2 = [] := by decide

theorem raiseLast_append (l : Bytes) (b : UInt8) :
    raiseLast (l ++ [b]) =
      if raiseLast l = [] then (if b ≠ 0xFF then [b + 1] else []) else raiseLast l ++ [b] := by
  induction l with
  | nil => simp [raiseLast]
  | cons c l ih =>
    by_cases hc : c = 0xFF
    · simp [raiseLast, hc, ih]
    · simp [raiseLast, hc]

theorem prefixEnd_cons (b : UInt8) (start : Bytes) :
    prefixEnd (b :: start) =
      if prefixEnd start = [] then (if b ≠ 0xFF then [b + 1] else [])
      else b :: prefixEnd start := by
  rw [prefixEnd, List.reverse_cons, raiseLast_append]
  by_cases hnil : raiseLast start.reverse = []
  · simp [prefixEnd, hnil]
    split <;> simp
  · simp [prefixEnd, hnil]

theorem lt_succ_iff {b c : UInt8} (hb : b ≠ 0xFF) : c < b + 1 ↔ ¬ b < c := by
  have hlt := b.toNat_lt
  have hne : b.toNat ≠ 255 := fun h => hb (UInt8.toNat_inj.mp h)
  have hsucc : (b + 1).toNat = b.toNat + 1 := by
    rw [UInt8.toNat_add]
    exact Nat.mod_eq_of_lt (by change b.toNat + 1 < 256; omega)
  rw [UInt8.lt_iff_toNat_lt, UInt8.lt_iff_toNat_lt, hsucc]
  omega

theorem between_prefixEnd {start key : Bytes} :
    ¬ key < start ∧ (prefixEnd start = [] ∨ key < prefixEnd start) ↔ start <+: key := by
  induction start generalizing key with
  | nil => exact iff_of_true ⟨List.not_lt_nil _, Or.inl rfl⟩ List.nil_prefix
  | cons b start ih =>
    cases key with
    | nil => simp
    | cons c key =>
      rw [List.cons_prefix_cons, ← ih, prefixEnd_cons, List.cons_lt_cons_iff]
      rcases lt_trichotomy b c with hlt | rfl | hgt
      · -- a larger byte is behind the end
        have hne : b ≠ c := ne_of_lt hlt
        have hmax : b ≠ 0xFF := by
          rintro rfl
          have hc := c.toNat_lt
          exact absurd (UInt8.lt_iff_toNat_lt.mp hlt) (by change ¬ 255 < c.toNat; omega)
        have hbehind : ¬ c < b + 1 := by rwa [lt_succ_iff hmax, not_not]
        by_cases hnil : prefixEnd start = []
        · simp [hnil, hmax, hne, hbehind, List.cons_lt_cons_iff]
        · simp [hnil, hne, List.cons_lt_cons_iff, not_lt_of_gt hlt, Ne.symm hne]
      · by_cases hnil : prefixEnd start = []
        · by_cases hmax : b = 0xFF
          · simp [hnil, hmax]
          · simp [hnil, hmax, List.cons_lt_cons_iff, lt_succ_iff hmax]
        · simp [hnil]
      · simp [hgt, ne_of_gt hgt]

/-- The strings that go on from `start` are those from it up to its end. -/
theorem inRange_prefixEnd {start key : Bytes} :
    MemEngine.inRange start (prefixEnd start) key = true ↔ start <+: key := by
  rw [MemEngine.inRange_iff, between_prefixEnd]

end PrefixEnd

/-- The scan collects the rows whose keys begin with `start`. -/
theorem scanPrefix_eq_ok (e : MemEngine) (start : String) :
    ∃ rows, scanPrefix e start = .ok rows ∧
      ∀ row, row ∈ rows ↔ (e.cfs .system).get row.1 = some row.2 ∧ start.asBytes <+: row.1 := by
  rw [scanPrefix, MemEngine.scan_name]
  refine ⟨_, rfl, fun row => ?_⟩
  rw [List.mem_filter, inRange_prefixEnd, OrdMap.get_eq_some_iff]

/-- A user with the roles stored beside it. -/
structure Account where
  user : StoredUser
  roles : List Role
  deriving DecidableEq

/-- A user of the tenant who is not a server admin. -/
def Account.TenantUser (tenant : String) (a : Account) : Prop :=
  a.user.tenant = some tenant ∧ .serverAdmin ∉ a.roles

instance Account.decidableTenantUser (tenant : String) (a : Account) :
    Decidable (a.TenantUser tenant) :=
  inferInstanceAs (Decidable (_ ∧ _))

/-- The stored users by their ids. -/
abbrev Accounts := String → Option Account

namespace AuthLibs

variable {libs : AuthLibs} {e : MemEngine} {accounts : Accounts} {id : String} {a : Account}

/-- The records under the keys of a user id. -/
def account (libs : AuthLibs) (e : MemEngine) : Accounts := fun id => do
  let user ← (e.cfs .system).get (userKey id)
  let roles ← (e.cfs .system).get (roleKey id)
  let user ← (libs.userFromSlice user).toOption
  let roles ← (libs.rolesFromSlice roles).toOption
  some ⟨user, roles.roles⟩

/-- The engine has the records of these accounts, and nothing else under the keys of users. -/
structure Keeps (libs : AuthLibs) (e : MemEngine) (accounts : Accounts) : Prop where
  user : ∀ id, (e.cfs .system).get (userKey id) = (accounts id).map fun a => libs.userToVec a.user
  roles : ∀ id,
    (e.cfs .system).get (roleKey id) = (accounts id).map fun a => libs.rolesToVec ⟨a.roles⟩
  named : ∀ id a, accounts id = some a → a.user.userId = id
  only : ∀ key value, (e.cfs .system).get key = some value → userKeyPrefix.asBytes <+: key →
    ∃ id, key = userKey id

theorem key_inj {start id id' : String} (h : (start ++ id).asBytes = (start ++ id').asBytes) :
    id = id' := by
  rw [String.asBytes_append, String.asBytes_append] at h
  exact String.asBytes_inj (List.append_cancel_left h)

theorem userKey_inj {id id' : String} (h : userKey id = userKey id') : id = id' := key_inj h

theorem roleKey_inj {id id' : String} (h : roleKey id = roleKey id') : id = id' := key_inj h

theorem userKey_prefix (id : String) : userKeyPrefix.asBytes <+: userKey id := by
  rw [userKey, String.asBytes_append]
  exact List.prefix_append _ _

/-- The keys of roles are not among those of users. -/
theorem not_prefix_roleKey (id : String) : ¬ userKeyPrefix.asBytes <+: roleKey id := by
  intro h
  have hlength : userKeyPrefix.asBytes.length = roleKeyPrefix.asBytes.length := by decide
  rw [roleKey, String.asBytes_append] at h
  have heq := List.prefix_of_prefix_length_le h (List.prefix_append _ _) hlength.le
  exact absurd (heq.eq_of_length hlength) (by decide)

theorem userKey_ne_roleKey (id id' : String) : userKey id ≠ roleKey id' := by
  intro h
  exact not_prefix_roleKey id' (h ▸ userKey_prefix id)

theorem Keeps.account (h : libs.Keeps e accounts) : libs.account e = accounts := by
  funext id
  rw [AuthLibs.account, h.user, h.roles]
  cases accounts id with
  | none => rfl
  | some a => simp [libs.userFromSlice_toVec, libs.rolesFromSlice_toVec, Except.toOption]

theorem keeps_new (libs : AuthLibs) : libs.Keeps .new fun _ => none :=
  ⟨fun _ => rfl, fun _ => rfl, fun _ _ h => (nomatch h), fun _ _ h => nomatch h⟩

/-- The row of the user of an account. -/
def userRow (libs : AuthLibs) (a : Account) : Bytes × Bytes :=
  (userKey a.user.userId, libs.userToVec a.user)

/-- What a row says about its account is told apart by the id. -/
theorem Keeps.eq_of_userRow (h : libs.Keeps e accounts) {id' : String} {a' : Account}
    (ha : accounts id = some a) (ha' : accounts id' = some a')
    (hrow : libs.userRow a = libs.userRow a') : a = a' := by
  have hid : id = id' := by
    rw [← h.named id a ha, ← h.named id' a' ha']
    exact userKey_inj (congrArg Prod.fst hrow)
  subst hid
  exact Option.some.inj (ha.symm.trans ha')

theorem decodeUser_toVec (libs : AuthLibs) (user : StoredUser) :
    libs.decodeUser (libs.userToVec user) = .ok user := by
  rw [decodeUser, libs.userFromSlice_toVec]
  rfl

/-- The users that a scan can find. -/
theorem Keeps.get_userRow (h : libs.Keeps e accounts) {row : Bytes × Bytes} :
    (e.cfs .system).get row.1 = some row.2 ∧ userKeyPrefix.asBytes <+: row.1 ↔
      ∃ a, (∃ id, accounts id = some a) ∧ libs.userRow a = row := by
  constructor
  · rintro ⟨hget, hkey⟩
    obtain ⟨id, hid⟩ := h.only _ _ hget hkey
    rw [hid, h.user, Option.map_eq_some_iff] at hget
    obtain ⟨a, ha, hvalue⟩ := hget
    refine ⟨a, ⟨id, ha⟩, Prod.ext ?_ hvalue⟩
    rw [hid, ← h.named id a ha]
    rfl
  · rintro ⟨a, ⟨id, ha⟩, rfl⟩
    refine ⟨?_, userKey_prefix _⟩
    rw [userRow, h.named id a ha, h.user, ha]
    rfl

/-- The scan goes through the accounts. -/
theorem Keeps.scanPrefix (h : libs.Keeps e accounts) : ∃ users : List Account,
    scanPrefix e userKeyPrefix = .ok (users.map libs.userRow) ∧
      ∀ a, a ∈ users ↔ ∃ id, accounts id = some a := by
  obtain ⟨rows, hscan, hrows⟩ := scanPrefix_eq_ok e userKeyPrefix
  -- each row that the scan finds is the row of an account, which the row determines
  have hrow : ∀ row : { row // row ∈ rows }, ∃ a, (∃ id, accounts id = some a) ∧
      libs.userRow a = row := fun row => h.get_userRow.mp ((hrows row).mp row.2)
  choose user huser hrow using hrow
  refine ⟨rows.attach.map user, ?_, ?_⟩
  · have hmap : libs.userRow ∘ user = Subtype.val := funext hrow
    rw [hscan, List.map_map, hmap, List.attach_map_subtype_val]
  · intro a
    constructor
    · intro ha
      obtain ⟨row, -, rfl⟩ := List.mem_map.mp ha
      exact huser row
    · rintro ⟨id, ha⟩
      have hmem : libs.userRow a ∈ rows := (hrows _).mpr (h.get_userRow.mpr ⟨a, ⟨id, ha⟩, rfl⟩)
      obtain ⟨id', ha'⟩ := huser ⟨_, hmem⟩
      have heq := h.eq_of_userRow ha ha' (hrow ⟨_, hmem⟩).symm
      exact List.mem_map.mpr ⟨⟨_, hmem⟩, List.mem_attach _ _, heq.symm⟩

theorem findIn_map (libs : AuthLibs) (username : String) (users : List Account) :
    libs.findIn username (users.map libs.userRow) =
      .ok ((users.find? fun a => a.user.username = username).map Account.user) := by
  induction users with
  | nil => rfl
  | cons a users ih =>
    rw [List.map_cons, userRow, findIn, decodeUser_toVec, Except.ok_bind]
    by_cases ha : a.user.username = username
    · rw [if_pos ha, List.find?_cons_of_pos (by simpa using ha)]
      rfl
    · rw [if_neg ha, List.find?_cons_of_neg (by simpa using ha), ih]

/-- The scan for a name never fails, and finds a user of that name if there is one. -/
theorem Keeps.findUserByUsername (h : libs.Keeps e accounts) (username : String) :
    (libs.findUserByUsername e username = .ok none ∧
      ∀ id a, accounts id = some a → a.user.username ≠ username) ∨
    (∃ id a, libs.findUserByUsername e username = .ok (some a.user) ∧
      accounts id = some a ∧ a.user.username = username) := by
  obtain ⟨users, hscan, husers⟩ := h.scanPrefix
  rw [AuthLibs.findUserByUsername, hscan, Except.ok_bind, findIn_map]
  cases hfind : users.find? fun a => a.user.username = username with
  | none =>
    refine Or.inl ⟨rfl, fun id a ha => ?_⟩
    simpa using List.find?_eq_none.mp hfind a ((husers a).mpr ⟨id, ha⟩)
  | some a =>
    obtain ⟨id, ha⟩ := (husers a).mp (List.mem_of_find?_eq_some hfind)
    exact Or.inr ⟨id, a, rfl, ha, by simpa using List.find?_some hfind⟩

theorem Keeps.findUserById (h : libs.Keeps e accounts) (id : String) :
    libs.findUserById e id = .ok ((accounts id).map Account.user) := by
  rw [AuthLibs.findUserById, MemEngine.get_name, h.user]
  cases accounts id with
  | none => rfl
  | some a =>
    change (libs.decodeUser (libs.userToVec a.user) >>= fun user => .ok (some user)) = _
    rw [decodeUser_toVec]
    rfl

theorem Keeps.getRoles (h : libs.Keeps e accounts) (ha : accounts id = some a) :
    libs.getRoles e id = .ok a.roles := by
  rw [AuthLibs.getRoles, MemEngine.get_name, h.roles, ha]
  simp [Except.mapError, deserializeJson, libs.rolesFromSlice_toVec, pure, Except.pure]

theorem Keeps.tenantIn (h : libs.Keeps e accounts) (tenant : String) {users : List Account}
    (husers : ∀ a ∈ users, ∃ id, accounts id = some a) :
    libs.tenantIn e tenant (users.map libs.userRow) =
      .ok (users.any fun a => a.TenantUser tenant) := by
  induction users with
  | nil => rfl
  | cons a users ih =>
    obtain ⟨id, ha⟩ := husers a List.mem_cons_self
    have hroles : libs.getRoles e a.user.userId = .ok a.roles := by
      rw [h.named id a ha]
      exact h.getRoles ha
    have hrest := ih fun b hb => husers b (List.mem_cons_of_mem _ hb)
    rw [List.map_cons, userRow, AuthLibs.tenantIn, decodeUser_toVec, Except.ok_bind, List.any_cons]
    by_cases htenant : a.user.tenant = some tenant
    · by_cases hadmin : .serverAdmin ∈ a.roles
      · simp [htenant, hroles, hadmin, Account.TenantUser, hrest]
      · simp [htenant, hroles, hadmin, Account.TenantUser]
    · simp [htenant, Account.TenantUser, hrest]

/-- The scan for a tenant never fails, and finds whether the tenant has a user. -/
theorem Keeps.nonServerAdminExistsForTenant (h : libs.Keeps e accounts) (tenant : String) :
    ∃ taken, libs.nonServerAdminExistsForTenant e tenant = .ok taken ∧
      (taken = true ↔ ∃ id a, accounts id = some a ∧ a.TenantUser tenant) := by
  obtain ⟨users, hscan, husers⟩ := h.scanPrefix
  refine ⟨users.any fun a => a.TenantUser tenant, ?_, ?_⟩
  · rw [AuthLibs.nonServerAdminExistsForTenant, hscan, Except.ok_bind]
    exact h.tenantIn tenant fun a ha => (husers a).mp ha
  · simp only [List.any_eq_true, husers, decide_eq_true_iff]
    constructor
    · rintro ⟨a, ⟨id, ha⟩, htenant⟩
      exact ⟨id, a, ha, htenant⟩
    · rintro ⟨id, a, ha, htenant⟩
      exact ⟨a, ⟨id, ha⟩, htenant⟩

/-- The engine with both records of the account. -/
def stored (libs : AuthLibs) (e : MemEngine) (a : Account) : MemEngine :=
  e.after [.put ColumnFamily.system.name (userKey a.user.userId) (libs.userToVec a.user),
    .put ColumnFamily.system.name (roleKey a.user.userId) (libs.rolesToVec ⟨a.roles⟩)]

theorem persistUserAndRoles_eq (libs : AuthLibs) (e : MemEngine) (a : Account) :
    libs.persistUserAndRoles e a.user ⟨a.roles⟩ = (.ok (), libs.stored e a) := by
  rw [persistUserAndRoles, MemEngine.writeBatch_known]
  · rfl
  · intro op hop
    refine ⟨.system, ?_⟩
    rcases List.mem_pair.mp hop with rfl | rfl <;> rfl

theorem get_stored (libs : AuthLibs) (e : MemEngine) (a : Account) (key : Bytes) :
    ((libs.stored e a).cfs .system).get key =
      if key = roleKey a.user.userId then some (libs.rolesToVec ⟨a.roles⟩)
      else if key = userKey a.user.userId then some (libs.userToVec a.user)
      else (e.cfs .system).get key := by
  simp only [stored, MemEngine.after, MemEngine.effect, List.foldl_cons, List.foldl_nil,
    BatchOp.cf, if_true, BatchOp.get_applyTo, BatchOp.key, BatchOp.outcome]
  congr

theorem stored_of_ne (libs : AuthLibs) (e : MemEngine) (a : Account) {cf : ColumnFamily}
    (h : cf ≠ .system) : (libs.stored e a).cfs cf = e.cfs cf := by
  have hname : ColumnFamily.system.name ≠ cf.name :=
    fun heq => h (ColumnFamily.name_inj heq).symm
  simp [stored, MemEngine.after, MemEngine.effect, BatchOp.cf, hname]

theorem Keeps.stored (h : libs.Keeps e accounts) (a : Account) :
    libs.Keeps (libs.stored e a) (Function.update accounts a.user.userId (some a)) where
  user id := by
    rw [get_stored, if_neg (userKey_ne_roleKey _ _)]
    by_cases hid : id = a.user.userId
    · rw [hid, if_pos rfl, Function.update_self]
      rfl
    · rw [if_neg (mt userKey_inj hid), Function.update_of_ne hid, h.user]
  roles id := by
    rw [get_stored]
    by_cases hid : id = a.user.userId
    · rw [hid, if_pos rfl, Function.update_self]
      rfl
    · rw [if_neg (mt roleKey_inj hid), if_neg (userKey_ne_roleKey _ _).symm,
        Function.update_of_ne hid, h.roles]
  named := Table.forall_update h.named rfl
  only key value hget hkey := by
    rw [get_stored, if_neg (fun heq => not_prefix_roleKey _ (heq ▸ hkey))] at hget
    by_cases huser : key = userKey a.user.userId
    · exact ⟨_, huser⟩
    · rw [if_neg huser] at hget
      exact h.only key value hget hkey

instance countableRole : Countable Role :=
  Function.Injective.countable (f := Role.ctorIdx) (by
    rintro ⟨⟩ ⟨⟩ h <;> first | rfl | cases h)

/-- Passwords are kept as they are. -/
structure Plain (libs : AuthLibs) : Prop where
  hash : ∀ salt password, libs.hashPassword salt password = .ok password
  verify : ∀ password hash, libs.verifyPassword password hash = decide (password = hash)

/-- Libraries as they are assumed here do exist. -/
theorem exists_plain : ∃ libs : AuthLibs, libs.Plain := by
  have huser : Countable StoredUser :=
    Function.Injective.countable
      (f := fun user => (user.userId, user.username, user.tenant, user.passwordHash)) (by
        rintro ⟨⟩ ⟨⟩ h
        simpa using h)
  have hroles : Countable StoredRoles :=
    Function.Injective.countable (f := StoredRoles.roles) (by
      rintro ⟨⟩ ⟨⟩ h
      exact congrArg _ h)
  obtain ⟨userToVec, userFromSlice, huser⟩ :=
    @Codec.exists_codec StoredUser Bytes huser ⟨⟨"", "", none, ""⟩⟩ inferInstance
  obtain ⟨rolesToVec, rolesFromSlice, hroles⟩ :=
    @Codec.exists_codec StoredRoles Bytes hroles ⟨⟨[]⟩⟩ inferInstance
  exact ⟨⟨userToVec, userFromSlice, rolesToVec, rolesFromSlice, fun _ password => .ok password,
    fun password hash => password = hash, huser, hroles⟩, ⟨fun _ _ => rfl, fun _ _ => rfl⟩⟩

end AuthLibs

end BashfulDB.Auth
