import Mathlib.Data.List.Nodup
import Narrative.Proofs.Timeline

/-!
This module contains what a timeline is to those who use it: a queue that gives tasks by their
instants, and by the order in which they were scheduled where the instants are the same.
-/

namespace Narrative.Timeline

inductive Call where
  | schedule (due : Instant) (action : Action)
  | cancel (id : Nat)
  | pop (now : Instant) (mark : Nat)

/--
A timeline, what was scheduled on it, which ids it said it cancelled, and what it gave as due.
-/
structure Ledger where
  timeline : Timeline := {}
  scheduled : List Task := []
  cancelled : List Nat := []
  popped : List Task := []

namespace Ledger

def take (l : Ledger) (call : Call) : Ledger :=
  match call with
  | .schedule due action =>
    { l with
      timeline := l.timeline.schedule due action
      scheduled := l.scheduled ++ [⟨l.timeline.watermark, due, action⟩] }
  | .cancel id =>
    { l with
      timeline := (l.timeline.cancel id).2
      cancelled := l.cancelled ++ if (l.timeline.cancel id).1 then [id] else [] }
  | .pop now mark =>
    match l.timeline.popDue? now mark with
    | none => l
    | some (task, timeline) => { l with timeline, popped := l.popped ++ [task] }

def run (calls : List Call) : Ledger :=
  calls.foldl take {}

/--
The ids of the tasks that have left the timeline.
-/
def gone (l : Ledger) : List Nat :=
  l.popped.map (·.id) ++ l.cancelled

end Ledger

/--
On the timeline `left`, the task is missing, and nothing else has changed.
-/
def Lacks (t : Timeline) (task : Task) (left : Timeline) : Prop :=
  ∃ before after, t.tasks = before ++ task :: after ∧ left = { t with tasks := before ++ after }

theorem cancel_of_not_pending {t : Timeline} {id : Nat} (h : ∀ task ∈ t.tasks, task.id ≠ id)
    : t.cancel id = (false, t) := by
  unfold cancel isPending
  apply Prod.ext
  . simpa using h
  . have hall : t.tasks.filter (·.id != id) = t.tasks := by
      rw [List.filter_eq_self]
      simpa using h
    dsimp only
    rw [hall]

theorem isPending_of_mem {t : Timeline} {task : Task} (h : task ∈ t.tasks)
    : t.isPending task.id = true := by
  unfold isPending
  rw [List.any_eq_true]
  exact ⟨task, h, beq_self_eq_true _⟩

theorem Ordered.lacks_cancel {t : Timeline} (h : t.Ordered) {task : Task} (hmem : task ∈ t.tasks)
    : t.Lacks task (t.cancel task.id).2 := by
  obtain ⟨before, after, htasks⟩ := List.append_of_mem hmem
  have hids := h.nodup_ids
  rw [htasks, List.map_append, List.map_cons, List.nodup_middle, List.nodup_cons,
    ← List.map_append] at hids
  have hothers : ∀ other ∈ before ++ after, (other.id != task.id) = true := by
    intro other hother
    rw [bne_iff_ne]
    intro hid
    exact hids.1 (hid ▸ List.mem_map_of_mem hother)
  refine ⟨before, after, htasks, ?_⟩
  dsimp only [cancel]
  rw [htasks, List.filter_append, List.filter_cons_of_neg (by simp), ← List.filter_append,
    List.filter_eq_self.mpr hothers]

/--
The tasks in the order of their instants. Those of one instant stay as they were.
-/
def byDue (tasks : List Task) : List Task :=
  tasks.mergeSort fun a b => a.due ≤ b.due

theorem byDue_perm (tasks : List Task) : (byDue tasks).Perm tasks := by
  apply List.mergeSort_perm

theorem due_le_trans (a b c : Task)
    : decide (a.due ≤ b.due) = true →
        decide (b.due ≤ c.due) = true →
          decide (a.due ≤ c.due) = true := by
  simp only [decide_eq_true_eq, Instant.le_iff_rank_le]
  omega

theorem due_le_total (a b : Task)
    : (decide (a.due ≤ b.due) || decide (b.due ≤ a.due)) = true := by
  simp only [Bool.or_eq_true, decide_eq_true_eq, Instant.le_iff_rank_le]
  omega

theorem byDue_filter_due (tasks : List Task) (due : Instant)
    : (byDue tasks).filter (·.due = due) = tasks.filter (·.due = due) := by
  have hsame : (tasks.filter (·.due = due)).Pairwise fun a b => decide (a.due ≤ b.due) = true := by
    apply List.pairwise_of_forall_mem_list
    intro a ha b hb
    simp only [List.mem_filter, decide_eq_true_eq] at ha hb ⊢
    rw [ha.2, hb.2]
    apply Int.le_refl
  have hstays := List.sublist_mergeSort due_le_trans due_le_total hsame List.filter_sublist
  have hstays := hstays.filter (·.due = due)
  simp only [List.filter_filter, Bool.and_self] at hstays
  symm
  apply hstays.eq_of_length
  apply (((byDue_perm tasks).filter _).length_eq).symm

theorem byDue_pairwise {tasks : List Task} (h : tasks.Pairwise fun a b => a.id < b.id)
    : (byDue tasks).Pairwise fun a b => a.before b = true := by
  rw [List.pairwise_iff_forall_sublist] at h ⊢
  intro a b hpair
  have hle : decide (a.due ≤ b.due) = true := by
    have hsorted := List.pairwise_mergeSort due_le_trans due_le_total tasks
    rw [List.pairwise_iff_forall_sublist] at hsorted
    apply hsorted hpair
  rw [decide_eq_true_eq, Instant.le_iff_rank_le] at hle
  rw [Task.before_iff]
  by_cases hdue : a.due = b.due
  . have hstays := hpair.filter (·.due = b.due)
    rw [byDue_filter_due] at hstays
    simp only [hdue, decide_true, List.filter_cons_of_pos, List.filter_nil] at hstays
    have := h (hstays.trans List.filter_sublist)
    rw [hdue]
    omega
  . rw [Instant.eq_iff_rank_eq] at hdue
    omega

variable {now : Instant} {mark : Nat} {t left : Timeline} {task : Task}

theorem popDue?_lacks (h : t.Ordered) (hpop : t.popDue? now mark = some (task, left))
    : task ∈ t.tasks.filter (·.isDue now mark)
        ∧ t.Lacks task left
        ∧ ∀ other ∈ t.tasks.filter (·.isDue now mark), other = task ∨ task.before other = true := by
  obtain ⟨hfirst, hleft⟩ := popDue?_eq_some hpop
  have hmem := earliest?_mem hfirst
  refine ⟨hmem, ?_, ?_⟩
  . rw [hleft]
    apply h.lacks_cancel (List.mem_filter.mp hmem).1
  . intro other hother
    by_cases hid : other.id = task.id
    . left
      apply h.eq_of_id_eq (List.mem_filter.mp hother).1 (List.mem_filter.mp hmem).1 hid
    . right
      apply before_of_earliest? hfirst hother hid

/--
What is popped comes first of what is due, and the rest follows in the same order.
-/
theorem byDue_popDue? (h : t.Ordered) (hpop : t.popDue? now mark = some (task, left))
    : byDue (t.tasks.filter (·.isDue now mark))
        =
      task :: byDue (left.tasks.filter (·.isDue now mark)) := by
  obtain ⟨hdue, _, hfirst⟩ := popDue?_lacks h hpop
  obtain ⟨_, hleft⟩ := popDue?_eq_some hpop
  rw [List.mem_filter] at hdue
  have hperm := h.perm_cancel hdue.1 hdue.2
  rw [← hleft] at hperm
  have hordered : left.Ordered := by
    rw [hleft]
    apply h.cancelled
  refine List.Perm.eq_of_pairwise ?_ (byDue_pairwise (h.increasing.sublist List.filter_sublist)) ?_ ?_
  . intro a b _ _ hab hba
    simp [Task.not_before_of_before hab] at hba
  . rw [List.pairwise_cons]
    refine ⟨?_, byDue_pairwise (hordered.increasing.sublist List.filter_sublist)⟩
    intro other hother
    rw [(byDue_perm _).mem_iff] at hother
    cases hfirst other (hperm.subset (List.mem_cons_of_mem _ hother)) with
    | inl hsame =>
      rw [List.mem_filter, hleft, hsame] at hother
      simp [cancel] at hother
    | inr hbefore => exact hbefore
  . exact (byDue_perm _).trans (hperm.symm.trans ((byDue_perm _).symm.cons _))

namespace Ledger

/--
Each id that was given out is that of a task which waits, or else of one which has left the timeline
once.
-/
structure Balanced (l : Ledger) : Prop where
  ids : l.scheduled.map (·.id) = List.range l.timeline.nextId
  pending : l.timeline.tasks = l.scheduled.filter (·.id ∉ l.gone)
  popped : ∀ task ∈ l.popped, task ∈ l.scheduled
  accounted : (l.timeline.tasks.map (·.id) ++ l.gone).Perm (List.range l.timeline.nextId)

namespace Balanced

variable {l : Ledger}

theorem mem_scheduled (h : l.Balanced) (hmem : task ∈ l.timeline.tasks) : task ∈ l.scheduled := by
  rw [h.pending] at hmem
  apply (List.mem_filter.mp hmem).1

theorem lt_of_mem_scheduled (h : l.Balanced) (hmem : task ∈ l.scheduled)
    : task.id < l.timeline.nextId := by
  rw [← List.mem_range, ← h.ids]
  apply List.mem_map_of_mem hmem

theorem ordered (h : l.Balanced) : l.timeline.Ordered where
  increasing := by
    have hids : (l.scheduled.map (·.id)).Pairwise (· < ·) := by
      rw [h.ids]
      apply List.pairwise_lt_range
    rw [h.pending]
    exact (List.pairwise_map.mp hids).sublist List.filter_sublist
  below := by
    intro task hmem
    exact h.lt_of_mem_scheduled (h.mem_scheduled hmem)

theorem schedule (h : l.Balanced) (due : Instant) (action : Action)
    : (l.take (.schedule due action)).Balanced := by
  let fresh : Task := ⟨l.timeline.nextId, due, action⟩
  have hfresh : fresh.id ∉ l.gone := by
    intro hgone
    have := h.accounted.subset (List.mem_append_right _ hgone)
    simp [fresh] at this
  constructor
  . simp [Ledger.take, Timeline.schedule, watermark, h.ids, List.range_succ]
  . change l.timeline.tasks ++ [fresh] = (l.scheduled ++ [fresh]).filter (·.id ∉ l.gone)
    rw [List.filter_append, ← h.pending, List.filter_cons_of_pos (by simpa using hfresh)]
    rfl
  . intro task hmem
    apply List.mem_append_left
    apply h.popped task hmem
  . change ((l.timeline.tasks ++ [fresh]).map Task.id ++ l.gone).Perm
      (List.range (l.timeline.nextId + 1))
    rw [List.map_append, List.append_assoc, List.range_succ]
    apply List.Perm.trans (List.perm_append_comm.append_left _)
    rw [← List.append_assoc]
    apply h.accounted.append_right

/--
The account stays even when a task leaves, whichever way it leaves.
-/
theorem drop (h : l.Balanced) (after : Ledger) (hmem : task ∈ l.timeline.tasks)
    (htimeline : after.timeline = (l.timeline.cancel task.id).2)
    (hscheduled : after.scheduled = l.scheduled) (hgone : after.gone.Perm (task.id :: l.gone))
    (hpopped : ∀ other ∈ after.popped, other ∈ l.popped ∨ other = task)
    : after.Balanced := by
  have hnextId : after.timeline.nextId = l.timeline.nextId := by
    rw [htimeline]
    rfl
  constructor
  . rw [hscheduled, hnextId, h.ids]
  . rw [htimeline, hscheduled]
    dsimp only [Timeline.cancel]
    rw [h.pending, List.filter_filter]
    apply List.filter_congr
    intro other _
    have := hgone.mem_iff (a := other.id)
    rw [List.mem_cons] at this
    rw [Bool.eq_iff_iff]
    simp [this]
  . intro other hother
    rw [hscheduled]
    cases hpopped other hother with
    | inl hbefore => exact h.popped other hbefore
    | inr hnow =>
      rw [hnow]
      apply h.mem_scheduled hmem
  . rw [hnextId, htimeline]
    have hleft := (h.ordered.cancel_perm hmem).map (·.id)
    rw [List.map_cons] at hleft
    apply List.Perm.trans _ h.accounted
    apply List.Perm.trans _ (hleft.append_right _)
    exact (hgone.append_left _).trans List.perm_middle

theorem take (h : l.Balanced) (call : Call) : (l.take call).Balanced := by
  cases call with
  | schedule due action => apply h.schedule
  | cancel id =>
    by_cases hpending : ∃ task ∈ l.timeline.tasks, task.id = id
    . obtain ⟨task, hmem, hid⟩ := hpending
      rw [← hid]
      apply h.drop (l.take (.cancel task.id)) hmem rfl rfl
      . have : (l.timeline.cancel task.id).1 = true := isPending_of_mem hmem
        simp only [gone, Ledger.take, this, if_true, ← List.append_assoc]
        apply List.perm_append_comm
      . exact fun other hother => .inl hother
    . have hnone : l.timeline.cancel id = (false, l.timeline) := by
        apply cancel_of_not_pending
        intro task hmem hid
        exact hpending ⟨task, hmem, hid⟩
      have : l.take (.cancel id) = l := by simp [Ledger.take, hnone]
      rw [this]
      exact h
  | pop now mark =>
    dsimp only [Ledger.take]
    split
    . exact h
    . next task left hpop =>
      obtain ⟨hmem, hleft⟩ := popDue?_removes hpop
      let after : Ledger := { l with timeline := left, popped := l.popped ++ [task] }
      apply h.drop after hmem hleft rfl
      . simp only [gone, after, List.map_append, List.map_cons, List.map_nil, List.append_assoc]
        apply List.perm_middle
      . intro other hother
        simpa [after] using hother

theorem foldl_take (h : l.Balanced) (calls : List Call) : (calls.foldl Ledger.take l).Balanced := by
  induction calls generalizing l with
  | nil => exact h
  | cons call calls ih => exact ih (h.take call)

end Balanced

theorem run_balanced (calls : List Call) : (run calls).Balanced := by
  apply Balanced.foldl_take
  constructor <;> simp [gone]

theorem take_scheduled (call : Call) (l : Ledger) : l.scheduled <+: (l.take call).scheduled := by
  unfold take
  split
  . apply List.prefix_append
  . apply List.prefix_refl
  . split
    . apply List.prefix_refl
    . apply List.prefix_refl

theorem foldl_take_scheduled (calls : List Call) (l : Ledger)
    : l.scheduled <+: (calls.foldl take l).scheduled := by
  induction calls generalizing l with
  | nil => apply List.prefix_refl
  | cons call calls ih => exact (l.take_scheduled call).trans (ih (l.take call))

/--
An earlier watermark tells what was scheduled before it was taken.
-/
theorem lt_watermark_iff (earlier later : List Call)
    (hmem : task ∈ (run (earlier ++ later)).timeline.tasks)
    : task.id < (run earlier).timeline.watermark ↔ task ∈ (run earlier).scheduled := by
  have hearlier := run_balanced earlier
  have hlater := run_balanced (earlier ++ later)
  constructor
  . intro hlt
    change task.id < (run earlier).timeline.nextId at hlt
    rw [← List.mem_range, ← hearlier.ids, List.mem_map] at hlt
    obtain ⟨same, hsame, hid⟩ := hlt
    have hkept : same ∈ (run (earlier ++ later)).scheduled := by
      unfold run
      rw [List.foldl_append]
      apply (foldl_take_scheduled later _).subset hsame
    have hnodup : ((run (earlier ++ later)).scheduled.map (·.id)).Nodup := by
      rw [hlater.ids]
      apply List.nodup_range
    rw [← List.inj_on_of_nodup_map hnodup hkept (hlater.mem_scheduled hmem) hid]
    exact hsame
  . apply hearlier.lt_of_mem_scheduled

theorem foldl_pop_popped {l : Ledger} (h : l.timeline.Ordered) (now : Instant) (mark pops : Nat)
    : ((List.replicate pops (.pop now mark)).foldl take l).popped
        =
      l.popped ++ (byDue (l.timeline.tasks.filter (·.isDue now mark))).take pops := by
  induction pops generalizing l with
  | zero => simp
  | succ pops ih =>
    rw [List.replicate_succ, List.foldl_cons]
    cases hpop : l.timeline.popDue? now mark with
    | none =>
      have hsame : l.take (.pop now mark) = l := by simp [take, hpop]
      have hnone := popDue?_eq_none_iff.mp hpop
      rw [hsame, ih h, hnone]
      simp [byDue]
    | some popped =>
      obtain ⟨task, left⟩ := popped
      have hnext : l.take (.pop now mark)
          = { l with timeline := left, popped := l.popped ++ [task] } := by
        simp [take, hpop]
      have hleft : left.Ordered := by
        rw [(popDue?_eq_some hpop).2]
        apply h.cancelled
      rw [hnext, ih hleft, byDue_popDue? h hpop, List.take_succ_cons, List.append_assoc]
      rfl

/--
A timeline is a queue in which each task that was scheduled waits, or was popped, or was cancelled. It
gives the tasks that are due by their instants, and those of one instant in the order they were
scheduled in. The watermark of an earlier time keeps what was scheduled since from being given.
-/
theorem run_queues (calls : List Call)
    : let l := run calls
      let t := l.timeline
      l.scheduled.map (·.id) = List.range l.scheduled.length
        ∧ t.tasks.Pairwise (fun a b => a.id < b.id)
        ∧ t.tasks = l.scheduled.filter (·.id ∉ l.gone)
        ∧ (∀ task ∈ l.popped, task ∈ l.scheduled)
        ∧ (t.tasks.map (·.id) ++ (l.popped.map (·.id) ++ l.cancelled)).Perm
            (List.range l.scheduled.length)
        ∧ (∀ task ∈ t.tasks, (t.cancel task.id).1 = true ∧ t.Lacks task (t.cancel task.id).2)
        ∧ (∀ id, (∀ task ∈ t.tasks, task.id ≠ id) → t.cancel id = (false, t))
        ∧ (t.nextDue? = none ↔ t.tasks = [])
        ∧ (∀ due, t.nextDue? = some due →
            (∃ task ∈ t.tasks, task.due = due) ∧ ∀ task ∈ t.tasks, due ≤ task.due)
        ∧ ∀ earlier later, calls = earlier ++ later → ∀ now,
            let mark := (run earlier).timeline.watermark
            let due := t.tasks.filter (·.isDue now mark)
            (∀ task, task ∈ due
                ↔ task ∈ t.tasks ∧ task.due ≤ now ∧ task ∈ (run earlier).scheduled)
              ∧ (t.popDue? now mark = none ↔ due = [])
              ∧ (∀ task left, t.popDue? now mark = some (task, left) →
                  task ∈ due
                    ∧ t.Lacks task left
                    ∧ ∀ other ∈ due, other = task
                        ∨ task.due < other.due
                        ∨ (task.due = other.due ∧ task.id < other.id))
              ∧ ∀ pops, (run (calls ++ List.replicate pops (.pop now mark))).popped
                  = l.popped ++ (due.mergeSort fun a b => a.due ≤ b.due).take pops := by
  intro l t
  have h : l.Balanced := run_balanced calls
  have hordered : t.Ordered := h.ordered
  have hlength : l.scheduled.length = t.nextId := by
    rw [← List.length_map (f := (·.id)), h.ids, List.length_range]
  refine ⟨?_, hordered.increasing, h.pending, h.popped, ?_, ?_, ?_, nextDue?_eq_none_iff, ?_, ?_⟩
  . rw [hlength, h.ids]
  . rw [hlength]
    apply h.accounted
  . intro task hmem
    exact ⟨isPending_of_mem hmem, hordered.lacks_cancel hmem⟩
  . intro id hnone
    apply cancel_of_not_pending hnone
  . intro due hdue
    apply nextDue?_least hdue
  . intro earlier later hcalls now mark due
    refine ⟨?_, popDue?_eq_none_iff, ?_, ?_⟩
    . intro task
      rw [List.mem_filter, Task.isDue_iff]
      apply and_congr_right
      intro hmem
      apply and_congr_right
      intro _
      apply lt_watermark_iff earlier later
      rw [← hcalls]
      exact hmem
    . intro task left hpop
      obtain ⟨hdue, hlacks, hfirst⟩ := popDue?_lacks hordered hpop
      refine ⟨hdue, hlacks, ?_⟩
      intro other hother
      apply (hfirst other hother).imp_right
      intro hbefore
      rw [Task.before_iff] at hbefore
      rw [Instant.lt_iff_rank_lt, Instant.eq_iff_rank_eq]
      exact hbefore
    . intro pops
      unfold run
      rw [List.foldl_append]
      apply foldl_pop_popped hordered

end Ledger

end Narrative.Timeline
