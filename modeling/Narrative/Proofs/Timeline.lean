import Mathlib.Data.List.Nodup
import Narrative.Timeline

/-!
This module contains what the operations of a timeline do to the tasks that wait on it.
-/

namespace Narrative

theorem Instant.eq_iff_rank_eq {a b : Instant} : a = b ↔ a.rank = b.rank := by
  constructor
  . intro h
    rw [h]
  . exact eq_of_rank_eq

theorem Instant.not_le {a b : Instant} : ¬a ≤ b ↔ b < a := by
  rw [le_iff_rank_le, lt_iff_rank_lt]
  omega

namespace Timeline

namespace Task

theorem before_iff {a b : Task}
    : a.before b = true
        ↔
      a.due.rank < b.due.rank ∨ (a.due.rank = b.due.rank ∧ a.id < b.id) := by
  unfold before
  simp [Instant.lt_iff_rank_lt, Instant.eq_iff_rank_eq]

theorem before_or_before {a b : Task} (h : a.id ≠ b.id)
    : a.before b = true ∨ b.before a = true := by
  rw [before_iff, before_iff]
  omega

theorem not_before_trans {a b c : Task} (hab : a.before b = false) (hbc : b.before c = false)
    : a.before c = false := by
  rw [Bool.eq_false_iff, ne_eq, before_iff] at *
  omega

theorem not_before_of_before {a b : Task} (h : a.before b = true) : b.before a = false := by
  rw [Bool.eq_false_iff, ne_eq, before_iff] at *
  omega

theorem not_before_self (a : Task) : a.before a = false := by
  rw [Bool.eq_false_iff, ne_eq, before_iff]
  omega

theorem isDue_iff {now : Instant} {mark : Nat} {task : Task}
    : task.isDue now mark = true ↔ task.due ≤ now ∧ task.id < mark := by
  unfold isDue
  simp

end Task

theorem earliest?_eq_none_iff {tasks : List Task} : earliest? tasks = none ↔ tasks = [] := by
  cases tasks with
  | nil => simp [earliest?]
  | cons task tasks =>
    unfold earliest?
    split
    . simp
    . split
      . simp
      . simp

theorem earliest?_mem {tasks : List Task} {task : Task} (h : earliest? tasks = some task)
    : task ∈ tasks := by
  induction tasks generalizing task with
  | nil => simp [earliest?] at h
  | cons head tasks ih =>
    unfold earliest? at h
    split at h
    . simp_all
    . next hother =>
      split at h
      . rw [← Option.some.inj h]
        exact List.mem_cons_of_mem _ (ih hother)
      . simp_all

theorem not_before_earliest? {tasks : List Task} {task : Task} (h : earliest? tasks = some task)
    : ∀ other ∈ tasks, other.before task = false := by
  induction tasks generalizing task with
  | nil => simp
  | cons head tasks ih =>
    unfold earliest? at h
    split at h
    . next hnone =>
      rw [earliest?_eq_none_iff] at hnone
      rw [hnone, ← Option.some.inj h]
      simp [Task.not_before_self]
    . next first hfirst =>
      intro other hmem
      rw [List.mem_cons] at hmem
      split at h
      . next hbefore =>
        rw [← Option.some.inj h]
        cases hmem with
        | inl hhead =>
          rw [hhead]
          exact Task.not_before_of_before hbefore
        | inr htail => exact ih hfirst other htail
      . next hbefore =>
        rw [← Option.some.inj h]
        cases hmem with
        | inl hhead =>
          rw [hhead]
          exact Task.not_before_self head
        | inr htail =>
          exact Task.not_before_trans (ih hfirst other htail) (Bool.eq_false_iff.mpr hbefore)

theorem before_of_earliest? {tasks : List Task} {task other : Task}
    (h : earliest? tasks = some task) (hmem : other ∈ tasks) (hid : other.id ≠ task.id)
    : task.before other = true := by
  have hnot := not_before_earliest? h other hmem
  cases Task.before_or_before hid with
  | inl hbefore => simp [hbefore] at hnot
  | inr hbefore => exact hbefore

theorem nextDue?_eq_none_iff {t : Timeline} : t.nextDue? = none ↔ t.tasks = [] := by
  unfold nextDue?
  rw [Option.map_eq_none_iff, earliest?_eq_none_iff]

theorem nextDue?_least {t : Timeline} {due : Instant} (h : t.nextDue? = some due)
    : (∃ task ∈ t.tasks, task.due = due) ∧ ∀ task ∈ t.tasks, due ≤ task.due := by
  unfold nextDue? at h
  rw [Option.map_eq_some_iff] at h
  obtain ⟨first, hfirst, hdue⟩ := h
  refine ⟨⟨first, earliest?_mem hfirst, hdue⟩, ?_⟩
  intro task hmem
  have hnot := not_before_earliest? hfirst task hmem
  rw [Bool.eq_false_iff, ne_eq, Task.before_iff] at hnot
  rw [← hdue, Instant.le_iff_rank_le]
  omega

theorem mem_of_mem_cancel {t : Timeline} {id : Nat} {task : Task}
    (h : task ∈ (t.cancel id).2.tasks)
    : task ∈ t.tasks :=
  (List.mem_filter.mp h).1

structure Ordered (t : Timeline) : Prop where
  increasing : t.tasks.Pairwise fun a b => a.id < b.id
  below : ∀ task ∈ t.tasks, task.id < t.nextId

namespace Ordered

variable {t : Timeline}

theorem cancelled (h : t.Ordered) (id : Nat) : (t.cancel id).2.Ordered where
  increasing := h.increasing.sublist List.filter_sublist
  below := by
    intro task hmem
    exact h.below task (mem_of_mem_cancel hmem)

theorem nodup_ids (h : t.Ordered) : (t.tasks.map (·.id)).Nodup := by
  rw [List.Nodup, List.pairwise_map]
  exact h.increasing.imp Nat.ne_of_lt

theorem eq_of_id_eq (h : t.Ordered) {a b : Task} (ha : a ∈ t.tasks) (hb : b ∈ t.tasks)
    (hid : a.id = b.id)
    : a = b :=
  List.inj_on_of_nodup_map h.nodup_ids ha hb hid

theorem isDue_nextId (h : t.Ordered) {task : Task} (hmem : task ∈ t.tasks) (now : Instant)
    : task.isDue now t.nextId = decide (task.due ≤ now) := by
  unfold Task.isDue
  simp [h.below task hmem]

theorem filter_cancel (h : t.Ordered) {task : Task} (hmem : task ∈ t.tasks) {f : Task → Bool}
    (hf : f task = false)
    : (t.cancel task.id).2.tasks.filter f = t.tasks.filter f := by
  dsimp only [cancel]
  rw [List.filter_filter]
  apply List.filter_congr
  intro other hother
  by_cases hid : other.id = task.id
  . rw [h.eq_of_id_eq hother hmem hid, hf]
    rfl
  . simp [hid]

theorem perm_cancel (h : t.Ordered) {task : Task} (hmem : task ∈ t.tasks) {f : Task → Bool}
    (hf : f task = true)
    : (task :: (t.cancel task.id).2.tasks.filter f).Perm (t.tasks.filter f) := by
  have hnodup := h.nodup_ids.of_map
  have hleft : ((t.cancel task.id).2.tasks.filter f).Nodup := (hnodup.filter _).filter _
  have hnot : task ∉ (t.cancel task.id).2.tasks.filter f := by
    simp [cancel]
  rw [List.perm_ext_iff_of_nodup (List.nodup_cons.mpr ⟨hnot, hleft⟩) (hnodup.filter f)]
  intro other
  by_cases hid : other.id = task.id
  . constructor
    . intro hother
      rw [List.mem_cons] at hother
      cases hother with
      | inl heq => simp [heq, hmem, hf]
      | inr hother => simp [cancel, hid] at hother
    . intro hother
      rw [h.eq_of_id_eq (List.mem_filter.mp hother).1 hmem hid]
      apply List.mem_cons_self
  . have hne : other ≠ task := fun heq => hid (congrArg _ heq)
    simp [cancel, hid, hne]

theorem cancel_perm (h : t.Ordered) {task : Task} (hmem : task ∈ t.tasks)
    : (task :: (t.cancel task.id).2.tasks).Perm t.tasks := by
  have hperm := h.perm_cancel hmem (f := fun _ => true) rfl
  rw [List.filter_true, List.filter_true] at hperm
  exact hperm

end Ordered

/--
On `after`, the tasks `kept` from `before` are followed by tasks `fresh` that were scheduled since.
No task that was scheduled since is missing.
-/
structure Leads (before : Timeline) (kept fresh : List Task) (after : Timeline) : Prop where
  tasks : after.tasks = kept ++ fresh
  ids : fresh.map (·.id) = List.range' before.nextId fresh.length
  nextId : after.nextId = before.nextId + fresh.length

namespace Leads

variable {before after last : Timeline} {kept fresh more : List Task}

theorem refl (t : Timeline) : Leads t t.tasks [] t where
  tasks := by simp
  ids := rfl
  nextId := rfl

theorem schedule (t : Timeline) (due : Instant) (action : Action)
    : Leads t t.tasks [⟨t.nextId, due, action⟩] (t.schedule due action) where
  tasks := rfl
  ids := rfl
  nextId := rfl

theorem filter (f : Task → Bool) (h : Leads before kept fresh after)
    (hlast : Leads after (after.tasks.filter f) more last) (hfresh : ∀ task ∈ fresh, f task = true)
    : Leads before (kept.filter f) (fresh ++ more) last where
  tasks := by
    rw [hlast.tasks, h.tasks, List.filter_append, List.filter_eq_self.mpr hfresh, List.append_assoc]
  ids := by
    rw [List.map_append, h.ids, hlast.ids, h.nextId, List.length_append, List.range'_append_1]
  nextId := by
    rw [hlast.nextId, h.nextId, List.length_append, Nat.add_assoc]

theorem trans (h : Leads before kept fresh after) (hlast : Leads after after.tasks more last)
    : Leads before kept (fresh ++ more) last := by
  rw [← List.filter_true after.tasks] at hlast
  have := h.filter (fun _ => true) hlast fun _ _ => rfl
  rw [List.filter_true] at this
  exact this

theorem le_of_mem_fresh (h : Leads before kept fresh after) {task : Task} (hmem : task ∈ fresh)
    : before.nextId ≤ task.id ∧ task.id < after.nextId := by
  have : task.id ∈ fresh.map (·.id) := List.mem_map_of_mem hmem
  rw [h.ids, List.mem_range'_1] at this
  rw [h.nextId]
  exact this

theorem filter_new (h : Leads before kept fresh after) (hbefore : before.Ordered)
    (hkept : kept.Sublist before.tasks)
    : after.tasks.filter (fun task => decide (before.nextId ≤ task.id)) = fresh := by
  have hold : kept.filter (fun task => decide (before.nextId ≤ task.id)) = [] := by
    rw [List.filter_eq_nil_iff]
    intro task hmem
    have := hbefore.below task (hkept.subset hmem)
    simpa using this
  have hnew : fresh.filter (fun task => decide (before.nextId ≤ task.id)) = fresh := by
    rw [List.filter_eq_self]
    intro task hmem
    simpa using (h.le_of_mem_fresh hmem).1
  rw [h.tasks, List.filter_append, hold, hnew, List.nil_append]

theorem not_due_of_mem_fresh (h : Leads before kept fresh after) {now : Instant} {mark : Nat}
    (hmark : mark ≤ before.nextId) {task : Task} (hmem : task ∈ fresh)
    : task.isDue now mark = false := by
  have := h.le_of_mem_fresh hmem
  rw [Bool.eq_false_iff, ne_eq, Task.isDue_iff]
  omega

theorem filter_isDue (h : Leads before kept fresh after) {now : Instant} {mark : Nat}
    (hmark : mark ≤ before.nextId)
    : after.tasks.filter (·.isDue now mark) = kept.filter (·.isDue now mark) := by
  have : fresh.filter (·.isDue now mark) = [] := by
    rw [List.filter_eq_nil_iff]
    intro task hmem
    simp [h.not_due_of_mem_fresh hmark hmem]
  rw [h.tasks, List.filter_append, this, List.append_nil]

theorem ordered (h : Leads before kept fresh after) (hkept : kept.Sublist before.tasks)
    (hbefore : before.Ordered)
    : after.Ordered where
  increasing := by
    rw [h.tasks, List.pairwise_append]
    refine ⟨hbefore.increasing.sublist hkept, ?_, ?_⟩
    . rw [← List.pairwise_map (f := Task.id) (R := (· < ·)), h.ids]
      exact List.pairwise_lt_range'
    . intro old hold new hnew
      have := hbefore.below old (hkept.subset hold)
      have := h.le_of_mem_fresh hnew
      omega
  below := by
    intro task hmem
    rw [h.tasks, List.mem_append] at hmem
    cases hmem with
    | inl hold =>
      have := hbefore.below task (hkept.subset hold)
      have := h.nextId
      omega
    | inr hnew => exact (h.le_of_mem_fresh hnew).2

end Leads

theorem popDue?_eq_none_iff {t : Timeline} {now : Instant} {mark : Nat}
    : t.popDue? now mark = none ↔ t.tasks.filter (·.isDue now mark) = [] := by
  unfold popDue?
  split
  . next h => simpa using earliest?_eq_none_iff.mp h
  . next h =>
    have := List.ne_nil_of_mem (earliest?_mem h)
    simp [this]

theorem popDue?_eq_some {t left : Timeline} {now : Instant} {mark : Nat} {task : Task}
    (h : t.popDue? now mark = some (task, left))
    : earliest? (t.tasks.filter (·.isDue now mark)) = some task ∧ left = (t.cancel task.id).2 := by
  unfold popDue? at h
  split at h
  . simp at h
  . next hearliest =>
    simp only [Option.some.injEq, Prod.mk.injEq] at h
    rw [hearliest, h.1]
    exact ⟨rfl, h.1 ▸ h.2.symm⟩

theorem popDue?_removes {t left : Timeline} {now : Instant} {mark : Nat} {task : Task}
    (h : t.popDue? now mark = some (task, left))
    : task ∈ t.tasks ∧ left = (t.cancel task.id).2 := by
  obtain ⟨hfirst, hleft⟩ := popDue?_eq_some h
  exact ⟨(List.mem_filter.mp (earliest?_mem hfirst)).1, hleft⟩

end Timeline

end Narrative
