import LadderLogic.Draft.Edit
import Mathlib.Data.List.Perm.Basic
import Mathlib.Data.List.Nodup

/-!
# Edits of drafts

An edit that is not refused replaces one draft by another with the same id (`update_cases`), takes one
out (`delete_cases`), or puts in a new one with an id above all others (`insert_cases`). So ids that are
distinct stay distinct through any edits (`nodup_editAll`). A new id is above those that are there, and
no more: the id of a draft that was taken out may come back.

Source: `update_instruction`, `delete_instruction` and `insert_instruction` (sections 2 and 7 of the
specification).
-/

namespace LadderLogic

/-- What is done with a value that is there. -/
theorem exists_of_map_eq_ok {ε α β : Type} {x : Except ε α} {f : α → β} {b : β} (h : x.map f = .ok b) :
    ∃ a, x = .ok a ∧ f a = b := by
  cases x with
  | error cause => cases h
  | ok a => exact ⟨a, rfl, Except.ok.inj h⟩

/-! ## New ids -/

theorem Instruction.lt_nextId {ids : List Int} {id : Int} (h : id ∈ ids) : id < nextId ids := by
  have hmax (rest : List Int) (m : Int) : m ≤ rest.foldl max m ∧ ∀ n ∈ rest, n ≤ rest.foldl max m := by
    induction rest generalizing m with
    | nil => exact ⟨Int.le_refl m, fun n hn => absurd hn List.not_mem_nil⟩
    | cons first rest ih =>
      obtain ⟨hm, hrest⟩ := ih (max m first)
      refine ⟨Int.le_trans (Int.le_max_left m first) hm, List.forall_mem_cons.2 ⟨?_, hrest⟩⟩
      exact Int.le_trans (Int.le_max_right m first) hm
  cases ids with
  | nil => exact absurd h List.not_mem_nil
  | cons first rest =>
    obtain ⟨hfirst, hrest⟩ := hmax rest first
    rw [nextId]
    rcases List.mem_cons.1 h with rfl | hmem
    · exact Int.lt_add_one_of_le hfirst
    · exact Int.lt_add_one_of_le (hrest id hmem)

namespace Draft

variable {drafts edited : List Draft}

theorem nextId_notMem (drafts : List Draft) : nextId drafts ∉ drafts.map Draft.id :=
  fun h => Int.lt_irrefl _ (Instruction.lt_nextId h)

/-! ## Single edits -/

/-- An edit of drafts. -/
inductive Edit where
  | update (index : Json) (changes : Json.Fields)
  | delete (index : Json)
  | insert (index type value args : Json)
  | insertSeries (index : Json)
  | insertParallel (index : Json)

/-- The drafts after an edit, or why it is refused. -/
def Edit.apply (drafts : List Draft) : Edit → Except EditError (List Draft)
  | .update index changes => Draft.update drafts index changes
  | .delete index => Draft.delete drafts index
  | .insert index type value args => Draft.insert drafts index type value args
  | .insertSeries index => Draft.insertSeries drafts index
  | .insertParallel index => Draft.insertParallel drafts index

/-- An index points at a place if it is an integer in its range. -/
theorem slot_eq_whole_iff {first n : Int} {index : Json} :
    slot drafts first index = .ok (.whole n) ↔
      index.integer? = some n ∧ first ≤ n ∧ n < drafts.length := by
  unfold slot Json.slot?
  constructor
  · intro h
    split at h
    · cases h
    · next hslot =>
      obtain rfl := Except.ok.inj h
      split at hslot
      · next m hm =>
        by_cases hrange : (first ≤ m && m < drafts.length) = true
        · rw [if_pos hrange] at hslot
          cases hslot
          simpa [hm] using hrange
        · rw [if_neg hrange] at hslot
          cases hslot
      · split at hslot <;> cases hslot
      · cases hslot
    · split at h <;> cases h
  · rintro ⟨hn, hrange⟩
    have hrange : (first ≤ n && n < drafts.length) = true := by simpa using hrange
    simp only [hn, hrange, if_true]

theorem exists_getElem?_of_slot {n : Int} {index : Json} (h : slot drafts 0 index = .ok (.whole n)) :
    ∃ d, drafts[n.toNat]? = some d := by
  have hrange := (slot_eq_whole_iff.1 h).2
  exact ⟨_, List.getElem?_eq_getElem (by omega)⟩

theorem change_id {d d' : Draft} {changes : Json.Fields} {args : List Json}
    (h : d.change changes args = .ok d') : d'.id = d.id := by
  simp only [change] at h
  split at h
  · cases h
  · obtain rfl := Except.ok.inj h
    rfl

/-- An update that is not refused changes the draft at its index. -/
theorem exists_change_of_update {index : Json} {changes : Json.Fields}
    (h : update drafts index changes = .ok edited) :
    ∃ n d d' args, slot drafts 0 index = .ok (.whole n) ∧ operands changes = .ok args ∧
      drafts[n.toNat]? = some d ∧ d.change changes (args.getD d.args) = .ok d' ∧
        edited = drafts.set n.toNat d' := by
  simp only [update] at h
  split at h
  · cases h
  split at h
  · cases h
  next place hslot =>
  unfold changeAt at h
  split at h
  · cases h
  split at h
  · cases h
  · cases h
  next args n hargs =>
  obtain ⟨d, hd⟩ := exists_getElem?_of_slot hslot
  rw [hd] at h
  obtain ⟨d', hchange, rfl⟩ := exists_of_map_eq_ok h
  exact ⟨n, d, d', args, hslot, hargs, hd, hchange, rfl⟩

/-- What an update does, if it is not refused: it puts a draft with the same id in the place of one. -/
theorem update_cases {index : Json} {changes : Json.Fields}
    (h : update drafts index changes = .ok edited) :
    ∃ n d d', slot drafts 0 index = .ok (.whole n) ∧ drafts[n.toNat]? = some d ∧ d'.id = d.id ∧
      edited = drafts.set n.toNat d' := by
  obtain ⟨n, d, d', args, hslot, -, hd, hchange, hedited⟩ := exists_change_of_update h
  exact ⟨n, d, d', hslot, hd, change_id hchange, hedited⟩

/-- What a deletion does, if it is not refused: it takes one draft out. -/
theorem delete_cases {index : Json} (h : delete drafts index = .ok edited) :
    ∃ n, slot drafts 0 index = .ok (.whole n) ∧ edited = drafts.eraseIdx n.toNat := by
  unfold delete at h
  split at h
  · cases h
  · cases h
  · next n hslot => exact ⟨n, hslot, (Except.ok.inj h).symm⟩

/-- What an insertion does, if it is not refused: it puts a draft with a new id behind a place, or in
front of all. -/
theorem insert_cases {index type value args : Json}
    (h : insert drafts index type value args = .ok edited) :
    ∃ n operands, slot drafts (-1) index = .ok (.whole n) ∧ (n + 1).toNat ≤ drafts.length ∧
      edited = drafts.insertIdx (n + 1).toNat ⟨nextId drafts, type, value, operands⟩ := by
  unfold insert at h
  split at h
  · cases h
  · cases h
  · cases h
  · next n _ hslot _ =>
    have hrange := (slot_eq_whole_iff.1 hslot).2
    exact ⟨n, _, hslot, by omega, (Except.ok.inj h).symm⟩

/-- What is put in stands between what was before and what was behind. -/
theorem insertIdx_eq_append {n : Nat} (hn : n ≤ drafts.length) (d : Draft) :
    drafts.insertIdx n d = drafts.take n ++ d :: drafts.drop n := by
  induction n generalizing drafts with
  | zero => rfl
  | succ n ih =>
    cases drafts with
    | nil => exact absurd hn (Nat.not_succ_le_zero n)
    | cons first rest =>
      rw [List.insertIdx_succ_cons, ih (Nat.le_of_succ_le_succ hn)]
      rfl

/-! ## Distinct ids -/

theorem nodup_insertIdx (h : (drafts.map Draft.id).Nodup) {n : Nat} (hn : n ≤ drafts.length)
    (type value : Json) (operands : List Json) :
    ((drafts.insertIdx n ⟨nextId drafts, type, value, operands⟩).map Draft.id).Nodup := by
  have hperm := (List.perm_insertIdx ⟨nextId drafts, type, value, operands⟩ drafts hn).map Draft.id
  rw [hperm.nodup_iff, List.map_cons, List.nodup_cons]
  exact ⟨nextId_notMem drafts, h⟩

/-- One edit keeps ids distinct. -/
theorem nodup_apply {e : Edit} (h : (drafts.map Draft.id).Nodup) (he : e.apply drafts = .ok edited) :
    (edited.map Draft.id).Nodup := by
  have hinsert {index type value args : Json}
      (hi : Draft.insert drafts index type value args = .ok edited) : (edited.map Draft.id).Nodup := by
    obtain ⟨n, operands, -, hn, rfl⟩ := insert_cases hi
    exact nodup_insertIdx h hn type value operands
  cases e with
  | update index changes =>
    obtain ⟨n, d, d', -, hd, hid, rfl⟩ := update_cases he
    obtain ⟨hlt, rfl⟩ := List.getElem?_eq_some_iff.1 hd
    have hsame : (drafts.map Draft.id).set n.toNat drafts[n.toNat].id = drafts.map Draft.id := by
      rw [← List.getElem_map Draft.id (h := by simpa using hlt), List.set_getElem_self]
    rwa [List.map_set, hid, hsame]
  | delete index =>
    obtain ⟨n, -, rfl⟩ := delete_cases he
    exact h.sublist ((List.eraseIdx_sublist drafts n.toNat).map Draft.id)
  | insert index type value args => exact hinsert he
  | insertSeries index => exact hinsert he
  | insertParallel index => exact hinsert he

/-! ## Many edits -/

/-- The drafts after an edit. One that is refused leaves them as they are. -/
def Edit.applied (drafts : List Draft) (e : Edit) : List Draft :=
  match e.apply drafts with
  | .ok edited => edited
  | .error _ => drafts

/-- The drafts after some edits. -/
def editAll (drafts : List Draft) (edits : List Edit) : List Draft := edits.foldl Edit.applied drafts

theorem nodup_applied (h : (drafts.map Draft.id).Nodup) (e : Edit) :
    ((e.applied drafts).map Draft.id).Nodup := by
  unfold Edit.applied
  split
  · next he => exact nodup_apply h he
  · exact h

theorem nodup_editAll (h : (drafts.map Draft.id).Nodup) (edits : List Edit) :
    ((editAll drafts edits).map Draft.id).Nodup := by
  induction edits generalizing drafts with
  | nil => exact h
  | cons e edits ih => exact ih (nodup_applied h e)

end Draft
end LadderLogic
