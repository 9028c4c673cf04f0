import Mathlib.Data.List.Nodup
import BashfulDB.Api.Pagination

/-! A client that follows the cursors of a listing from page to page, over a list that may lose ids
between its requests. -/
namespace BashfulDB.Api

open Data

/-- The ids from which a request takes its page. -/
def unread (ids : List ObjectId) (cursor : Option ObjectId) : List ObjectId :=
  match cursor with
  | none => ids
  | some afterId => ids.drop (((ids.findIdx? (· = afterId)).map (· + 1)).getD 0)

/-- The pages that a client has received, and the cursor parameter of its next request. There is no
next request once a response has had no cursor. -/
structure Client where
  pages : List (List ObjectId)
  next : Option (Option String)
deriving DecidableEq

def Client.start : Client := ⟨[], some none⟩

def Client.received (c : Client) : List ObjectId := c.pages.flatten

/-- A request that finds `ids` in the collection. One with a malformed cursor brings nothing. -/
def Client.request (limit : Nat) (c : Client) (ids : List ObjectId) : Client :=
  match c.next with
  | none => c
  | some cursor =>
    match parseCursorParam cursor with
    | .error _ => c
    | .ok afterId =>
      let (page, nextCursor) := paginateIds ids afterId limit
      ⟨c.pages ++ [page], nextCursor.map some⟩

/-- The client after its first requests, the `n`-th of which finds `lists n`. -/
def Client.after (lists : Nat → List ObjectId) (limit : Nat) : Nat → Client
  | 0 => .start
  | n + 1 => (Client.after lists limit n).request limit (lists n)

variable {ids ids' seen rest : List ObjectId} {id : ObjectId} {cursor : Option ObjectId}
  {limit n : Nat} {lists : Nat → List ObjectId} {c : Client}

theorem unread_of_not_mem (h : id ∉ ids) : unread ids (some id) = ids := by
  have hnone : ids.findIdx? (· = id) = none := by
    rw [List.findIdx?_eq_none_iff]
    intro x hx
    have hne : x ≠ id := fun heq => h (heq ▸ hx)
    simpa using hne
  simp [unread, hnone]

theorem unread_append (h : (seen ++ id :: rest).Nodup) :
    unread (seen ++ id :: rest) (some id) = rest := by
  have hseen : id ∉ seen := fun hid => List.disjoint_of_nodup_append h hid List.mem_cons_self
  have hnone : seen.findIdx? (· = id) = none := by
    rw [List.findIdx?_eq_none_iff]
    intro x hx
    have hne : x ≠ id := fun heq => hseen (heq ▸ hx)
    simpa using hne
  simp [unread, List.findIdx?_append, hnone, List.findIdx?_cons]

theorem paginateIds_eq (ids : List ObjectId) (cursor : Option ObjectId) (limit : Nat) :
    paginateIds ids cursor limit = ((unread ids cursor).take limit,
      if limit < (unread ids cursor).length then
        ((unread ids cursor).take limit).getLast?.map encodeCursor else none) := by
  have hiff (start : Nat) : start + limit < ids.length ↔ limit < (ids.drop start).length := by
    rw [List.length_drop]
    omega
  cases cursor with
  | none => exact Prod.ext rfl (if_congr (hiff 0) rfl rfl)
  | some afterId => exact Prod.ext rfl (if_congr (hiff _) rfl rfl)

/-- A page is the last one, or it is full and its cursor is its last id. -/
theorem paginateIds_cases (hlimit : 1 ≤ limit) (ids : List ObjectId) (cursor : Option ObjectId) :
    ((unread ids cursor).length ≤ limit ∧
      paginateIds ids cursor limit = (unread ids cursor, none)) ∨
    ∃ page id rest, unread ids cursor = page ++ id :: rest ∧ page.length + 1 = limit ∧ rest ≠ [] ∧
      paginateIds ids cursor limit = (page ++ [id], some (encodeCursor id)) := by
  rw [paginateIds_eq]
  generalize unread ids cursor = u
  by_cases hlong : limit < u.length
  · right
    obtain ⟨k, rfl⟩ : ∃ k, limit = k + 1 := ⟨limit - 1, by omega⟩
    have hk : k < u.length := by omega
    have htake : u.take (k + 1) = u.take k ++ [u[k]] := List.take_succ_eq_append_getElem hk
    have hsplit : u = u.take k ++ u[k] :: u.drop (k + 1) := by
      rw [← List.drop_eq_getElem_cons hk, List.take_append_drop]
    have hfull : (u.take k).length + 1 = k + 1 := by
      rw [List.length_take]
      omega
    have hrest : u.drop (k + 1) ≠ [] := by
      intro hnil
      have hlen := List.drop_eq_nil_iff.mp hnil
      omega
    refine ⟨u.take k, u[k], u.drop (k + 1), hsplit, hfull, hrest, ?_⟩
    rw [if_pos hlong, htake, List.getLast?_concat, Option.map_some]
  · left
    have hshort : u.length ≤ limit := by omega
    exact ⟨hshort, by rw [if_neg hlong, List.take_of_length_le hshort]⟩

theorem parseCursorParam_map (cursor : Option ObjectId) :
    parseCursorParam (cursor.map encodeCursor) = .ok cursor := by
  cases cursor with
  | none => rfl
  | some id =>
    rw [Option.map_some, parseCursorParam]
    simp only [decodeCursor_encodeCursor]

theorem request_of_finished (h : c.next = none) : c.request limit ids = c := by
  simp [Client.request, h]

/-- What a request brings: what is left, or a full page and the cursor of its last id. -/
theorem request_cases (hlimit : 1 ≤ limit) (h : c.next = some (cursor.map encodeCursor))
    (ids : List ObjectId) :
    ((unread ids cursor).length ≤ limit ∧
      c.request limit ids = ⟨c.pages ++ [unread ids cursor], none⟩) ∨
    ∃ page id rest, unread ids cursor = page ++ id :: rest ∧ page.length + 1 = limit ∧ rest ≠ [] ∧
      c.request limit ids = ⟨c.pages ++ [page ++ [id]], some (some (encodeCursor id))⟩ := by
  simp only [Client.request, h, parseCursorParam_map]
  rcases paginateIds_cases hlimit ids cursor with
    ⟨hshort, heq⟩ | ⟨page, id, rest, hsplit, hfull, hrest, heq⟩
  · left
    simp [heq, hshort]
  · right
    exact ⟨page, id, rest, hsplit, hfull, hrest, by simp [heq]⟩

theorem nodup_of_sublists (hdelete : ∀ n, (lists (n + 1)).Sublist (lists n))
    (hnodup : (lists 0).Nodup) (n : Nat) : (lists n).Nodup := by
  induction n with
  | zero => exact hnodup
  | succ n ih => exact ih.sublist (hdelete n)

/-- The next request has fewer ids before it, unless the list has become shorter. -/
theorem unread_after (hdelete : (lists (n + 1)).Sublist (lists n)) (hnodup : (lists n).Nodup)
    {page : List ObjectId} (hsplit : unread (lists n) cursor = page ++ id :: rest) :
    (lists (n + 1)).length < (lists n).length ∨
      (lists (n + 1)).length = (lists n).length ∧
        (unread (lists (n + 1)) (some id)).length < (unread (lists n) cursor).length := by
  rcases Nat.lt_or_ge (lists (n + 1)).length (lists n).length with hlt | hge
  · exact Or.inl hlt
  · right
    have heq : lists (n + 1) = lists n := hdelete.eq_of_length_le hge
    obtain ⟨before, hbefore⟩ : ∃ before, lists n = before ++ page ++ id :: rest := by
      have hsuffix : unread (lists n) cursor <:+ lists n := by
        cases cursor with
        | none => exact List.suffix_refl _
        | some afterId => exact List.drop_suffix _ _
      obtain ⟨before, hbefore⟩ := hsuffix
      exact ⟨before, by rw [← hbefore, hsplit, List.append_assoc]⟩
    have hunread : unread (lists n) (some id) = rest := by
      rw [hbefore] at hnodup ⊢
      exact unread_append hnodup
    refine ⟨by rw [heq], ?_⟩
    rw [heq, hunread, hsplit, List.length_append, List.length_cons]
    omega

/-- Whatever is deleted between the requests, the client comes to an end: the list gets shorter or
the cursor gets closer to its end. -/
theorem finishes_from (hlimit : 1 ≤ limit) (hdelete : ∀ n, (lists (n + 1)).Sublist (lists n))
    (hnodup : ∀ n, (lists n).Nodup) (len left : Nat) :
    ∀ n cursor, (lists n).length = len → (unread (lists n) cursor).length = left →
      (Client.after lists limit n).next = some (cursor.map encodeCursor) →
        ∃ m, (Client.after lists limit m).next = none := by
  induction len using Nat.strong_induction_on generalizing left with
  | _ len ihlen =>
    induction left using Nat.strong_induction_on with
    | _ left ihleft =>
      intro n cursor hlen hleft hnext
      rcases request_cases hlimit hnext (lists n) with
        ⟨-, heq⟩ | ⟨page, id, rest, hsplit, -, -, heq⟩
      · exact ⟨n + 1, by rw [Client.after, heq]⟩
      · have hnext' : (Client.after lists limit (n + 1)).next =
            some ((some id).map encodeCursor) := by
          rw [Client.after, heq]
          rfl
        rcases unread_after (hdelete n) (hnodup n) hsplit with hlt | ⟨hsame, hlt⟩
        · exact ihlen _ (hlen ▸ hlt) _ (n + 1) (some id) rfl rfl hnext'
        · exact ihleft _ (hleft ▸ hlt) (n + 1) (some id) (hsame.trans hlen) rfl hnext'

theorem client_finishes (hlimit : 1 ≤ limit) (hdelete : ∀ n, (lists (n + 1)).Sublist (lists n))
    (hnodup : (lists 0).Nodup) : ∃ n, (Client.after lists limit n).next = none :=
  finishes_from hlimit hdelete (nodup_of_sublists hdelete hnodup) _ _ 0 none rfl rfl rfl

/-- A client on its way through a list that stays as it is: its pages are full, and what it has
not received is what the next request has before it. -/
structure Client.OnWay (limit : Nat) (ids : List ObjectId) (c : Client)
    (cursor : Option ObjectId) : Prop where
  next : c.next = some (cursor.map encodeCursor)
  covered : c.received ++ unread ids cursor = ids
  full : ∀ page ∈ c.pages, page.length = limit
  more : unread ids cursor = [] → c.pages = []

/-- A client that has come to the end: it has the whole list, in full pages up to the last one,
which is no longer than the others, and an empty page only where the list is empty. -/
structure Client.Complete (limit : Nat) (ids : List ObjectId) (c : Client) : Prop where
  next : c.next = none
  covered : c.received = ids
  full : ∀ page ∈ c.pages.dropLast, page.length = limit
  bounded : ∀ page ∈ c.pages, page.length ≤ limit
  nonempty : [] ∈ c.pages → ids = [] ∧ c.pages = [[]]

theorem Client.OnWay.request (h : c.OnWay limit ids cursor) (hlimit : 1 ≤ limit)
    (hnodup : ids.Nodup) :
    (c.request limit ids).Complete limit ids ∨
      ∃ id, (c.request limit ids).OnWay limit ids (some id) := by
  have hcovered := h.covered
  rcases request_cases hlimit h.next ids with
    ⟨hshort, heq⟩ | ⟨page, id, rest, hsplit, hfull, hrest, heq⟩
  · left
    rw [heq]
    have hbounded : ∀ page ∈ c.pages, page.length ≤ limit := fun page hp => (h.full page hp).le
    refine ⟨rfl, by simpa [Client.received] using hcovered, by simpa using h.full,
      List.forall_mem_append.mpr ⟨hbounded, by simpa using hshort⟩, ?_⟩
    intro hempty
    have hunread : unread ids cursor = [] := by
      rcases List.mem_append.mp hempty with hold | hnew
      · have hlen := h.full [] hold
        rw [List.length_nil] at hlen
        omega
      · exact (List.mem_singleton.mp hnew).symm
    have hpages := h.more hunread
    have hids : ids = [] := by
      rw [← hcovered, hunread, Client.received, hpages]
      rfl
    exact ⟨hids, by simp [hpages, hunread]⟩
  · right
    have hids : ids = (c.received ++ page) ++ id :: rest := by
      rw [List.append_assoc, ← hsplit, hcovered]
    have hunread : unread ids (some id) = rest := by
      rw [hids] at hnodup ⊢
      exact unread_append hnodup
    rw [heq]
    refine ⟨id, rfl, ?_, ?_, fun hnil => absurd (hunread ▸ hnil) hrest⟩
    · rw [hunread]
      simpa [Client.received] using hids.symm
    · intro p hp
      rcases List.mem_append.mp hp with hold | hnew
      · exact h.full p hold
      · rw [List.mem_singleton.mp hnew, List.length_append]
        exact hfull

theorem complete_or_onWay (hlimit : 1 ≤ limit) (hnodup : ids.Nodup) (n : Nat) :
    (Client.after (fun _ => ids) limit n).Complete limit ids ∨
      ∃ cursor, (Client.after (fun _ => ids) limit n).OnWay limit ids cursor := by
  induction n with
  | zero => exact Or.inr ⟨none, rfl, rfl, by simp [Client.after, Client.start], fun _ => rfl⟩
  | succ n ih =>
    rcases ih with hdone | ⟨cursor, hway⟩
    · left
      rw [Client.after, request_of_finished hdone.next]
      exact hdone
    · rcases hway.request hlimit hnodup with hdone | ⟨id, hway⟩
      · exact Or.inl hdone
      · exact Or.inr ⟨some id, hway⟩

/-- Following the cursors through a list that does not change visits every id once, in order. -/
theorem pages_visit_all (ids : List ObjectId) (limit : Nat) (hnodup : ids.Nodup)
    (hlimit : 1 ≤ limit) : ∃ n, (Client.after (fun _ => ids) limit n).Complete limit ids := by
  obtain ⟨n, hdone⟩ : ∃ n, (Client.after (fun _ => ids) limit n).next = none :=
    client_finishes hlimit (fun _ => List.Sublist.refl _) hnodup
  rcases complete_or_onWay hlimit hnodup n with hcomplete | ⟨cursor, hway⟩
  · exact ⟨n, hcomplete⟩
  · rw [hway.next] at hdone
    cases hdone

/-- An object id with the given bits. -/
def objectId (bits : BitVec 128) : ObjectId := ⟨⟨bits⟩⟩

theorem three_ids_visited : ∃ n, (Client.after (fun _ => [objectId 1, objectId 2, objectId 3]) 2
    n).Complete 2 [objectId 1, objectId 2, objectId 3] :=
  pages_visit_all _ 2 (by decide) (by decide)

/-- Where a client stands in the list of its next request. What it has received comes first; its
cursor is the last such id, or has been deleted. -/
inductive Placed (received : List ObjectId) : Option ObjectId → List ObjectId → Prop
  | start {ids : List ObjectId} (hnone : received = []) : Placed received none ids
  | present {seen rest : List ObjectId} {id : ObjectId} (hid : id ∈ received)
      (hseen : ∀ x ∈ seen, x ∈ received) (hrest : ∀ x ∈ rest, x ∉ received) :
      Placed received (some id) (seen ++ id :: rest)
  | deleted {seen rest : List ObjectId} {id : ObjectId} (hid : id ∉ seen ++ rest)
      (hseen : ∀ x ∈ seen, x ∈ received) (hrest : ∀ x ∈ rest, x ∉ received) :
      Placed received (some id) (seen ++ rest)

/-- If the id of the cursor has been deleted, then so has everything that was received. -/
def Client.Clear (c : Client) (ids : List ObjectId) : Prop :=
  ∀ id, c.next = some (some (encodeCursor id)) → id ∉ ids → ∀ x ∈ ids, x ∉ c.received

variable {received : List ObjectId}

theorem Placed.sublist (h : Placed received cursor ids) (hnodup : ids.Nodup)
    (hsub : ids'.Sublist ids) : Placed received cursor ids' := by
  cases h with
  | start hnone => exact .start hnone
  | @present seen rest id hid hseen hrest =>
    obtain ⟨seen', tail', rfl, hseen', htail'⟩ := List.sublist_append_iff.mp hsub
    have hfront : ∀ x ∈ seen', x ∈ received := fun x hx => hseen x (hseen'.subset hx)
    rcases List.sublist_cons_iff.mp htail' with hrest' | ⟨rest', rfl, hrest'⟩
    · have hgone : id ∉ seen' ++ tail' := by
        intro hmem
        rcases List.mem_append.mp hmem with hmem | hmem
        · exact List.disjoint_of_nodup_append hnodup (hseen'.subset hmem) List.mem_cons_self
        · exact hrest id (hrest'.subset hmem) hid
      exact .deleted hgone hfront fun x hx => hrest x (hrest'.subset hx)
    · exact .present hid hfront fun x hx => hrest x (hrest'.subset hx)
  | @deleted seen rest id hid hseen hrest =>
    obtain ⟨seen', rest', rfl, hseen', hrest'⟩ := List.sublist_append_iff.mp hsub
    refine .deleted (fun hmem => hid (hsub.subset hmem)) (fun x hx => hseen x (hseen'.subset hx)) ?_
    exact fun x hx => hrest x (hrest'.subset hx)

/-- The next request starts right behind what was received, unless the cursor has been deleted and
something received has not: then it starts with that. -/
theorem Placed.unread_cases (h : Placed received cursor ids) (hnodup : ids.Nodup) :
    (∃ seen, ids = seen ++ unread ids cursor ∧ (∀ x ∈ seen, x ∈ received) ∧
      ∀ x ∈ unread ids cursor, x ∉ received) ∨
    ∃ id y rest, cursor = some id ∧ id ∉ ids ∧ unread ids cursor = y :: rest ∧ y ∈ received := by
  cases h with
  | start hnone =>
    left
    exact ⟨[], rfl, by simp, by simp [hnone]⟩
  | @present seen rest id hid hseen hrest =>
    left
    refine ⟨seen ++ [id], by rw [unread_append hnodup]; simp, ?_, ?_⟩
    · intro x hx
      rcases List.mem_append.mp hx with hx | hx
      · exact hseen x hx
      · rwa [List.mem_singleton.mp hx]
    · rwa [unread_append hnodup]
  | @deleted seen rest id hid hseen hrest =>
    rw [unread_of_not_mem hid]
    cases seen with
    | nil =>
      left
      exact ⟨[], rfl, by simp, hrest⟩
    | cons y seen =>
      right
      exact ⟨id, y, seen ++ rest, rfl, hid, rfl, hseen y List.mem_cons_self⟩

/-- The part of a page in what a request has before it. -/
theorem request_received (hlimit : 1 ≤ limit) (h : c.next = some (cursor.map encodeCursor))
    (ids : List ObjectId) :
    ∃ page rest, unread ids cursor = page ++ rest ∧ (page = [] → rest = []) ∧
      (c.request limit ids).received = c.received ++ page ∧
      ((c.request limit ids).next = none ∨ ∃ front id, page = front ++ [id] ∧
        (c.request limit ids).next = some ((some id).map encodeCursor)) := by
  rcases request_cases hlimit h ids with ⟨-, heq⟩ | ⟨page, id, rest, hsplit, -, -, heq⟩
  · exact ⟨unread ids cursor, [], by simp, fun _ => rfl, by simp [heq, Client.received],
      Or.inl (by rw [heq])⟩
  · exact ⟨page ++ [id], rest, by simp [hsplit], by simp, by simp [heq, Client.received],
      Or.inr ⟨page, id, rfl, by rw [heq]; rfl⟩⟩

/-- A client without repetitions: it has finished, or it stands behind what it has received. -/
def Client.Sound (c : Client) (ids : List ObjectId) : Prop :=
  c.received.Nodup ∧ (c.next = none ∨
    ∃ cursor : Option ObjectId, c.next = some (cursor.map encodeCursor) ∧
      Placed c.received cursor ids)

theorem encodeCursor_inj {id id' : ObjectId} (h : encodeCursor id = encodeCursor id') :
    id = id' := by
  have hdecode := congrArg decodeCursor h
  simpa only [decodeCursor_encodeCursor, Option.some.injEq] using hdecode

theorem Client.Sound.request (h : c.Sound ids) (hlimit : 1 ≤ limit) (hnodup : ids.Nodup)
    (hclear : c.Clear ids) : (c.request limit ids).Sound ids := by
  obtain ⟨hreceived, hdone | ⟨cursor, hnext, hplaced⟩⟩ := h
  · rw [request_of_finished hdone]
    exact ⟨hreceived, Or.inl hdone⟩
  · rcases hplaced.unread_cases hnodup with
      ⟨seen, hids, hseen, hfresh⟩ | ⟨id, y, rest, rfl, hid, hunread, hy⟩
    · obtain ⟨page, rest, hsplit, -, hnew, hnext'⟩ := request_received hlimit hnext ids
      have hpage : page.Nodup := by
        rw [hids, hsplit] at hnodup
        exact hnodup.of_append_right.of_append_left
      have hdisjoint : List.Disjoint c.received page := by
        intro x hx hxp
        exact hfresh x (by simp [hsplit, hxp]) hx
      refine ⟨hnew ▸ hreceived.append hpage hdisjoint, ?_⟩
      rcases hnext' with hdone | ⟨front, id, rfl, hnext'⟩
      · exact Or.inl hdone
      · right
        refine ⟨some id, hnext', ?_⟩
        rw [hnew]
        have hids' : ids = (seen ++ front) ++ id :: rest := by
          rw [hids, hsplit]
          simp
        rw [hids']
        refine .present (by simp) ?_ ?_
        · intro x hx
          rcases List.mem_append.mp hx with hx | hx
          · exact List.mem_append_left _ (hseen x hx)
          · exact List.mem_append_right _ (List.mem_append_left _ hx)
        · intro x hx hmem
          rcases List.mem_append.mp hmem with hmem | hmem
          · exact hfresh x (by simp [hsplit, hx]) hmem
          · rw [hids, hsplit] at hnodup
            exact List.disjoint_of_nodup_append hnodup.of_append_right hmem hx
    · have hmem : y ∈ ids := by
        rw [← unread_of_not_mem hid, hunread]
        exact List.mem_cons_self
      exact absurd hy (hclear id hnext hid y hmem)

/-- Where the condition fails, the page repeats an id. -/
theorem Client.Sound.clear (h : c.Sound ids) (hlimit : 1 ≤ limit) (hnodup : ids.Nodup)
    (hnext : (c.request limit ids).received.Nodup) : c.Clear ids := by
  intro id hcursor hid x hx hxr
  obtain ⟨-, hdone | ⟨cursor, hcursor', hplaced⟩⟩ := h
  · rw [hdone] at hcursor
    cases hcursor
  · have hsame : cursor = some id := by
      rw [hcursor', Option.some.injEq] at hcursor
      obtain ⟨id', rfl, heq⟩ := Option.map_eq_some_iff.mp hcursor
      rw [encodeCursor_inj heq]
    subst hsame
    rcases hplaced.unread_cases hnodup with
      ⟨seen, -, -, hfresh⟩ | ⟨-, y, rest, -, -, hunread, hy⟩
    · rw [unread_of_not_mem hid] at hfresh
      exact hfresh x hx hxr
    · obtain ⟨page, tail, hsplit, hempty, hnew, -⟩ := request_received hlimit hcursor' ids
      rw [hnew] at hnext
      cases page with
      | nil => simp [hunread, hempty rfl] at hsplit
      | cons z page =>
        rw [hunread, List.cons_append, List.cons.injEq] at hsplit
        exact List.disjoint_of_nodup_append hnext hy (by simp [hsplit.1])

theorem Client.Sound.sublist (h : c.Sound ids) (hnodup : ids.Nodup) (hsub : ids'.Sublist ids) :
    c.Sound ids' := by
  obtain ⟨hreceived, hdone | ⟨cursor, hnext, hplaced⟩⟩ := h
  · exact ⟨hreceived, Or.inl hdone⟩
  · exact ⟨hreceived, Or.inr ⟨cursor, hnext, hplaced.sublist hnodup hsub⟩⟩

theorem sound_start (ids : List ObjectId) : Client.start.Sound ids :=
  ⟨List.nodup_nil, Or.inr ⟨none, rfl, .start rfl⟩⟩

/-- With ids deleted between the requests the client comes to an end, and it receives no id twice
exactly when each cursor whose id has been deleted meets a list without any received id. -/
theorem no_repetition_iff (lists : Nat → List ObjectId) (limit : Nat) (hnodup : (lists 0).Nodup)
    (hdelete : ∀ n, (lists (n + 1)).Sublist (lists n)) (hlimit : 1 ≤ limit) :
    (∃ n, (Client.after lists limit n).next = none) ∧
      ((∀ n, (Client.after lists limit n).received.Nodup) ↔
        ∀ n, (Client.after lists limit n).Clear (lists n)) := by
  have hnodups := nodup_of_sublists hdelete hnodup
  refine ⟨client_finishes hlimit hdelete hnodup, ?_, ?_⟩
  · intro hreceived
    -- the client stands behind what it has received, so that the next page shows the condition
    have hsound : ∀ n, (Client.after lists limit n).Sound (lists n) := by
      intro n
      induction n with
      | zero => exact sound_start _
      | succ n ih =>
        have hclear := ih.clear hlimit (hnodups n) (hreceived (n + 1))
        exact (ih.request hlimit (hnodups n) hclear).sublist (hnodups n) (hdelete n)
    exact fun n => (hsound n).clear hlimit (hnodups n) (hreceived (n + 1))
  · intro hclear n
    have hsound : (Client.after lists limit n).Sound (lists n) := by
      induction n with
      | zero => exact sound_start _
      | succ n ih =>
        exact (ih.request hlimit (hnodups n) (hclear n)).sublist (hnodups n) (hdelete n)
    exact hsound.1

/-- Four ids, and those that are left from the second request on. -/
def losing (left : List ObjectId) : Nat → List ObjectId
  | 0 => [objectId 1, objectId 2, objectId 3, objectId 4]
  | _ + 1 => left

theorem sublist_losing (left : List ObjectId) (h : left.Sublist (losing left 0)) (n : Nat) :
    (losing left (n + 1)).Sublist (losing left n) := by
  cases n with
  | zero => exact h
  | succ n => exact List.Sublist.refl _

theorem next_of_finished (h : (Client.after lists limit n).next = none) (k : Nat) :
    (Client.after lists limit (n + k)).next = none := by
  induction k with
  | zero => exact h
  | succ k ih => rwa [← Nat.add_assoc, Client.after, request_of_finished ih]

/-- The first id is deleted after the first page, which is of no consequence. -/
theorem losing_first_not_repeated :
    (∃ n, (Client.after (losing [objectId 2, objectId 3, objectId 4]) 2 n).next = none) ∧
      ∀ n, (Client.after (losing [objectId 2, objectId 3, objectId 4]) 2 n).received.Nodup := by
  have hdelete := sublist_losing [objectId 2, objectId 3, objectId 4] (by decide)
  obtain ⟨hend, hiff⟩ := no_repetition_iff _ 2 (by decide) hdelete (by decide)
  refine ⟨hend, hiff.mpr ?_⟩
  intro n id hnext hid
  match n with
  | 0 => cases hnext
  | 1 =>
    have hcursor : (Client.after (losing [objectId 2, objectId 3, objectId 4]) 2 1).next =
        some (some (encodeCursor (objectId 2))) := by decide +kernel
    rw [hcursor, Option.some.injEq, Option.some.injEq] at hnext
    exact absurd (encodeCursor_inj hnext) (by rintro rfl; exact hid (by decide))
  | n + 2 =>
    have hdone : (Client.after (losing [objectId 2, objectId 3, objectId 4]) 2 2).next = none := by
      decide +kernel
    rw [Nat.add_comm n 2, next_of_finished hdone n] at hnext
    cases hnext

/-- The second id is the first cursor. Once it has been deleted, the first id comes again. -/
theorem losing_cursor_repeats :
    (Client.after (losing [objectId 1, objectId 3, objectId 4]) 2 2).received =
        [objectId 1, objectId 2, objectId 1, objectId 3] ∧
      ¬ (Client.after (losing [objectId 1, objectId 3, objectId 4]) 2 2).received.Nodup := by
  decide +kernel

end BashfulDB.Api
