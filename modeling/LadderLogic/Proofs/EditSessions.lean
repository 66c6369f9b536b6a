import LadderLogic.Proofs.Edits

/-!
# Editing sessions

A session is a list of edits, each made on what the one before has left. An edit is refused or not by its
index and its arguments alone (`isOk_apply_iff`), and one that is not refused does its work at the place
of its index and leaves the rest of the drafts in order (`effect_of_apply`). So the way of a draft
through a session is known from the edits: it stays, steps back behind a deletion, steps on behind an
insertion, and ends where it is deleted itself (`Edit.follow`, `followAll`). On this way it keeps its id,
and it never passes another draft.

Ids alone would not tell which drafts have survived a session, as a new draft may have the id of a draft
that was deleted.

Source: the editor helpers (sections 2 and 7 of the specification).
-/

namespace LadderLogic
namespace Draft

variable {drafts edited : List Draft}

/-! ## Edits that are allowed -/

/-- An index is an integer from `first` to the last place of some drafts. -/
def InRange (drafts : List Draft) (first : Int) (index : Json) : Prop :=
  ∃ n, index.integer? = some n ∧ first ≤ n ∧ n < drafts.length

/-- The names of the fields that can be changed. -/
def fieldNames : List Text := ["type", "value", "args"]

/-- The index of an edit is in range, and its arguments can be used. -/
def Edit.IsAllowed (drafts : List Draft) : Edit → Prop
  | .update index changes =>
    InRange drafts 0 index ∧ (∀ change ∈ changes, change.1 ∈ fieldNames) ∧
      ∀ v, Json.field? changes "args" = some v → v.items.isOk = true
  | .delete index => InRange drafts 0 index
  | .insert index _ _ args => InRange drafts (-1) index ∧ args.items.isOk = true
  | .insertSeries index | .insertParallel index => InRange drafts (-1) index

theorem exists_of_isOk {ε α : Type} {x : Except ε α} (h : x.isOk = true) : ∃ a, x = .ok a := by
  cases x with
  | error cause => cases h
  | ok a => exact ⟨a, rfl⟩

theorem exists_slot_iff {first : Int} {index : Json} :
    (∃ n, slot drafts first index = .ok (.whole n)) ↔ InRange drafts first index :=
  exists_congr fun _ => slot_eq_whole_iff

theorem findChange_eq_none_iff {changes : Json.Fields} {wanted : Text → Bool} :
    findChange changes wanted = none ↔ ∀ change ∈ changes, wanted change.1 = false := by
  simp [findChange]

theorem isOk_change_iff {d : Draft} {changes : Json.Fields} {args : List Json} :
    (d.change changes args).isOk = true ↔ ∀ change ∈ changes, change.1 ∈ fieldNames := by
  have hnone : (findChange changes fun name => !fieldNames.contains name) = none ↔
      ∀ change ∈ changes, change.1 ∈ fieldNames := by
    simp only [findChange_eq_none_iff, Bool.not_eq_false', List.contains_iff_mem]
  simp only [change]
  split
  · next name hsome =>
    refine iff_of_false (fun h => by cases h) fun hknown => ?_
    cases hsome.symm.trans (hnone.2 hknown)
  · next hfound => exact iff_of_true rfl (hnone.1 hfound)

theorem isOk_operands_iff {changes : Json.Fields} :
    (operands changes).isOk = true ↔
      ∀ v, Json.field? changes "args" = some v → v.items.isOk = true := by
  rw [operands]
  cases Json.field? changes "args" with
  | none => exact iff_of_true rfl fun v hv => by cases hv
  | some v =>
    have hitems : ((v.items.mapError EditError.conversion).map some).isOk = v.items.isOk := by
      cases v.items <;> rfl
    rw [hitems]
    exact ⟨fun h w hw => Option.some.inj hw ▸ h, fun h => h v rfl⟩

theorem isOk_update_iff {index : Json} {changes : Json.Fields} :
    (update drafts index changes).isOk = true ↔ (Edit.update index changes).IsAllowed drafts := by
  rw [Edit.IsAllowed, ← exists_slot_iff, ← isOk_operands_iff]
  constructor
  · intro h
    obtain ⟨edited, h⟩ := exists_of_isOk h
    obtain ⟨n, d, d', args, hslot, hargs, -, hchange, -⟩ := exists_change_of_update h
    have hisOk : (d.change changes (args.getD d.args)).isOk = true := by
      rw [hchange]
      rfl
    refine ⟨⟨n, hslot⟩, isOk_change_iff.1 hisOk, ?_⟩
    rw [hargs]
    rfl
  · rintro ⟨⟨n, hslot⟩, hknown, hargs⟩
    obtain ⟨args, hargs⟩ := exists_of_isOk hargs
    obtain ⟨d, hd⟩ := exists_getElem?_of_slot hslot
    have hisOk : (d.change changes (args.getD d.args)).isOk = true := isOk_change_iff.2 hknown
    obtain ⟨d', hchange⟩ := exists_of_isOk hisOk
    have htaken : findChange changes (["instructions", "index"] : List Text).contains = none := by
      refine findChange_eq_none_iff.2 fun change hc => ?_
      have hfree : ∀ name ∈ fieldNames, (["instructions", "index"] : List Text).contains name = false := by
        decide
      exact hfree _ (hknown change hc)
    have hid : Json.field? changes "id" = none := by
      refine List.lookup_eq_none_iff.2 fun change hc => ?_
      have hfree : ∀ name ∈ fieldNames, (Text.ofString "id" != name) = true := by decide
      exact hfree _ (hknown change hc)
    rw [update]
    simp only [htaken, hslot, changeAt, hid, hargs, hd, hchange]
    rfl

theorem isOk_delete_iff {index : Json} :
    (delete drafts index).isOk = true ↔ InRange drafts 0 index := by
  rw [← exists_slot_iff]
  constructor
  · intro h
    obtain ⟨edited, h⟩ := exists_of_isOk h
    obtain ⟨n, hslot, -⟩ := delete_cases h
    exact ⟨n, hslot⟩
  · rintro ⟨n, hslot⟩
    rw [delete, hslot]
    rfl

theorem isOk_insert_iff {index type value args : Json} :
    (insert drafts index type value args).isOk = true ↔
      InRange drafts (-1) index ∧ args.items.isOk = true := by
  rw [← exists_slot_iff]
  constructor
  · intro h
    obtain ⟨edited, h⟩ := exists_of_isOk h
    obtain ⟨n, -, hslot, -⟩ := insert_cases h
    refine ⟨⟨n, hslot⟩, ?_⟩
    cases hargs : args.items with
    | ok items => rfl
    | error e =>
      rw [insert, hslot, hargs] at h
      cases h
  · rintro ⟨⟨n, hslot⟩, hargs⟩
    obtain ⟨items, hitems⟩ := exists_of_isOk hargs
    rw [insert, hslot, hitems]
    rfl

/-- An edit is refused exactly if it is not allowed. -/
theorem isOk_apply_iff {e : Edit} : (e.apply drafts).isOk = true ↔ e.IsAllowed drafts := by
  have hplaceholder {index type value : Json} :
      (Draft.insert drafts index type value (.arr [])).isOk = true ↔ InRange drafts (-1) index :=
    isOk_insert_iff.trans (and_iff_left rfl)
  cases e with
  | update index changes => exact isOk_update_iff
  | delete index => exact isOk_delete_iff
  | insert index type value args => exact isOk_insert_iff
  | insertSeries index => exact hplaceholder
  | insertParallel index => exact hplaceholder

/-! ## What an edit does -/

/-- What an edit makes of drafts: an update puts a draft with the same id in the place of its index, a
deletion takes out the draft there, and an insertion puts a draft behind it. -/
def Edit.Effect (drafts edited : List Draft) : Edit → Prop
  | .update index _ =>
    ∃ (n : Nat) (d d' : Draft), index.integer? = some (n : Int) ∧ drafts[n]? = some d ∧ d'.id = d.id ∧
      edited = drafts.take n ++ d' :: drafts.drop (n + 1)
  | .delete index =>
    ∃ n : Nat, index.integer? = some (n : Int) ∧ n < drafts.length ∧
      edited = drafts.take n ++ drafts.drop (n + 1)
  | .insert index _ _ _ | .insertSeries index | .insertParallel index =>
    ∃ (n : Nat) (d : Draft), index.integer? = some ((n : Int) - 1) ∧ n ≤ drafts.length ∧
      d.id ∉ drafts.map Draft.id ∧ edited = drafts.take n ++ d :: drafts.drop n

theorem effect_of_apply {e : Edit} (h : e.apply drafts = .ok edited) : e.Effect drafts edited := by
  have hinsert {index type value args : Json}
      (hi : Draft.insert drafts index type value args = .ok edited) :
      (Edit.insert index type value args).Effect drafts edited := by
    obtain ⟨n, operands, hslot, hn, rfl⟩ := insert_cases hi
    obtain ⟨hindex, hrange⟩ := slot_eq_whole_iff.1 hslot
    refine ⟨(n + 1).toNat, _, ?_, hn, nextId_notMem drafts, insertIdx_eq_append hn _⟩
    rw [hindex, Int.toNat_of_nonneg (by omega), Int.add_sub_cancel]
  cases e with
  | update index changes =>
    obtain ⟨n, d, d', hslot, hd, hid, rfl⟩ := update_cases h
    obtain ⟨hindex, hrange⟩ := slot_eq_whole_iff.1 hslot
    refine ⟨n.toNat, d, d', ?_, hd, hid, ?_⟩
    · rw [hindex, Int.toNat_of_nonneg hrange.1]
    · rw [List.set_eq_take_append_cons_drop, if_pos (List.getElem?_eq_some_iff.1 hd).1]
  | delete index =>
    obtain ⟨n, hslot, rfl⟩ := delete_cases h
    obtain ⟨hindex, hrange⟩ := slot_eq_whole_iff.1 hslot
    refine ⟨n.toNat, ?_, by omega, List.eraseIdx_eq_take_drop_succ drafts n.toNat⟩
    rw [hindex, Int.toNat_of_nonneg hrange.1]
  | insert index type value args => exact hinsert h
  | insertSeries index => exact hinsert h
  | insertParallel index => exact hinsert h

/-! ## The way of a draft -/

namespace Edit

/-- The place at which an edit works. -/
def place : Edit → Nat
  | .update index _ | .delete index => (index.integer?.getD 0).toNat
  | .insert index _ _ _ | .insertSeries index | .insertParallel index => (index.integer?.getD 0 + 1).toNat

/-- Where an edit that is not refused leaves the draft at a place. The draft that it deletes is nowhere. -/
def moved (e : Edit) (k : Nat) : Option Nat :=
  match e with
  | .update _ _ => some k
  | .delete _ => if k < e.place then some k else if k = e.place then none else some (k - 1)
  | .insert _ _ _ _ | .insertSeries _ | .insertParallel _ => some (if k < e.place then k else k + 1)

/-- Where the draft at a place is after an edit, if it is still there. -/
def follow (drafts : List Draft) (e : Edit) (k : Nat) : Option Nat :=
  if (e.apply drafts).isOk then e.moved k else some k

variable {e : Edit} {k k' j j' : Nat}

/-- No draft passes another one. -/
theorem moved_lt_moved (hk : e.moved k = some j) (hk' : e.moved k' = some j') (h : k < k') : j < j' := by
  cases e with
  | update index changes =>
    cases hk
    cases hk'
    exact h
  | delete index | insert index type value args | insertSeries index | insertParallel index =>
    simp only [moved] at hk hk'
    grind

theorem follow_lt_follow (hk : e.follow drafts k = some j) (hk' : e.follow drafts k' = some j')
    (h : k < k') : j < j' := by
  unfold follow at hk hk'
  split at hk
  · next hok =>
    rw [if_pos hok] at hk'
    exact moved_lt_moved hk hk' h
  · next hok =>
    rw [if_neg hok] at hk'
    cases hk
    cases hk'
    exact h

/-- A draft that is not deleted keeps its id. -/
theorem id_of_moved (he : e.apply drafts = .ok edited) (hk : e.moved k = some j) :
    (edited[j]?).map Draft.id = (drafts[k]?).map Draft.id := by
  have hinsert {index type value args : Json}
      (hi : Draft.insert drafts index type value args = .ok edited)
      (hk : (Edit.insert index type value args).moved k = some j) : edited[j]? = drafts[k]? := by
    obtain ⟨n, operands, hslot, -, rfl⟩ := insert_cases hi
    obtain ⟨hindex, -⟩ := slot_eq_whole_iff.1 hslot
    simp only [moved, place, hindex, Option.getD_some, Option.some.injEq] at hk
    rw [List.getElem?_insertIdx]
    grind
  cases e with
  | update index changes =>
    cases hk
    obtain ⟨n, d, d', -, hd, hid, rfl⟩ := update_cases he
    rw [List.getElem?_set]
    split
    · next hn =>
      subst hn
      rw [if_pos (List.getElem?_eq_some_iff.1 hd).1, hd, Option.map_some, Option.map_some, hid]
    · rfl
  | delete index =>
    obtain ⟨n, hslot, rfl⟩ := delete_cases he
    obtain ⟨hindex, -⟩ := slot_eq_whole_iff.1 hslot
    simp only [moved, place, hindex, Option.getD_some] at hk
    rw [List.getElem?_eraseIdx]
    grind
  | insert index type value args => rw [hinsert he hk]
  | insertSeries index => rw [hinsert he hk]
  | insertParallel index => rw [hinsert he hk]

theorem id_of_follow (hk : e.follow drafts k = some j) :
    ((e.applied drafts)[j]?).map Draft.id = (drafts[k]?).map Draft.id := by
  rw [follow] at hk
  rw [applied]
  cases he : e.apply drafts with
  | ok edited =>
    rw [he] at hk
    exact id_of_moved he hk
  | error cause =>
    rw [he] at hk
    cases hk
    rfl

end Edit

/-- Where the draft at a place is after some edits, if it is still there. -/
def followAll (drafts : List Draft) : List Edit → Nat → Option Nat
  | [], k => some k
  | e :: edits, k => (e.follow drafts k).bind (followAll (e.applied drafts) edits)

theorem followAll_lt_followAll {edits : List Edit} {k k' j j' : Nat}
    (hk : followAll drafts edits k = some j) (hk' : followAll drafts edits k' = some j') (h : k < k') :
    j < j' := by
  induction edits generalizing drafts k k' with
  | nil =>
    cases hk
    cases hk'
    exact h
  | cons e edits ih =>
    obtain ⟨m, hm, hj⟩ := Option.bind_eq_some_iff.1 hk
    obtain ⟨m', hm', hj'⟩ := Option.bind_eq_some_iff.1 hk'
    exact ih hj hj' (Edit.follow_lt_follow hm hm' h)

theorem id_of_followAll {edits : List Edit} {k j : Nat} (hk : followAll drafts edits k = some j) :
    ((editAll drafts edits)[j]?).map Draft.id = (drafts[k]?).map Draft.id := by
  induction edits generalizing drafts k with
  | nil =>
    cases hk
    rfl
  | cons e edits ih =>
    obtain ⟨m, hm, hj⟩ := Option.bind_eq_some_iff.1 hk
    exact (ih hj).trans (Edit.id_of_follow hm)

/-! ## Sessions -/

/-- Some edits, made one after the other, keep the identities of drafts: the ids are distinct, one more
edit is refused exactly if it is not allowed, and works at its place only if it is, and all drafts that
were not deleted have their ids and their order. -/
structure KeepIdentities (drafts : List Draft) (edits : List Edit) : Prop where
  distinct : ((editAll drafts edits).map Draft.id).Nodup
  allowed : ∀ e : Edit, (e.apply (editAll drafts edits)).isOk = true ↔ e.IsAllowed (editAll drafts edits)
  effect : ∀ (e : Edit) (edited : List Draft), e.apply (editAll drafts edits) = .ok edited →
    e.Effect (editAll drafts edits) edited
  kept : ∀ k j d, drafts[k]? = some d → followAll drafts edits k = some j →
    ∃ d', (editAll drafts edits)[j]? = some d' ∧ d'.id = d.id
  ordered : ∀ k k' j j', followAll drafts edits k = some j → followAll drafts edits k' = some j' →
    k < k' → j < j'

/-- **Editing keeps identities.** Any edits, whatever their indexes and arguments are, keep the identities
of drafts with distinct ids. -/
theorem keepIdentities_of_nodup (h : (drafts.map Draft.id).Nodup) (edits : List Edit) :
    KeepIdentities drafts edits where
  distinct := nodup_editAll h edits
  allowed := fun _ => isOk_apply_iff
  effect := fun _ _ he => effect_of_apply he
  kept := fun k j d hd hk => by
    have hid := id_of_followAll hk
    rw [hd, Option.map_some] at hid
    obtain ⟨d', hd', hid⟩ := Option.map_eq_some_iff.1 hid
    exact ⟨d', hd', hid⟩
  ordered := fun _ _ _ _ hk hk' hlt => followAll_lt_followAll hk hk' hlt

/-- The last draft goes with the highest id, a new one takes the id over, an id cannot be changed, and an
index behind the last draft is refused. -/
theorem keepIdentities_of_nodup_taken_over :
    let drafts : List Draft := ["LD", "AND", "OUT"].zipIdx.map fun p =>
      { id := p.2 - 2, type := .str (Text.ofString p.1), value := .str ['X'], args := [] }
    let edits : List Edit := [.delete (.int 2), .insertSeries (.int (-1)),
      .update (.int 0) [("id", .int 5)], .update (.int 1) [("value", .str ['Y'])], .insertParallel (.int 3)]
    (drafts.map Draft.id).Nodup ∧ (editAll drafts edits).map Draft.id = [0, -2, -1] ∧
      (List.range 3).map (followAll drafts edits) = [some 1, some 2, none] ∧
        KeepIdentities drafts edits := by
  intro drafts edits
  have h : (drafts.map Draft.id).Nodup := by decide
  exact ⟨h, by decide, by decide, keepIdentities_of_nodup h edits⟩

end Draft
end LadderLogic
