import ControlRTT.Kernel.MutexSystem

/-! # Priority inheritance is undone (ipc.c)

A mutex keeps the priority that its owner had when it took it, and the outermost release
of any mutex sets the owner's priority to that of the released mutex. So a thread that
owns no mutex any more has its base priority exactly if the mutex it released last was
taken at that priority (`restored_throughout_iff`): the order of the releases decides. -/
namespace ControlRTT.Kernel.Inheritance
open ControlRTT.Lib.Runs ControlRTT.Kernel.Thread ControlRTT.Kernel.MutexSystem

variable {Mutex Other Thread : Type} [DecidableEq Mutex] [DecidableEq Other] [DecidableEq Thread]

/-- Threads without mutexes have their base priorities. -/
def Restored (base : Thread → Nat) (s : System Mutex Other Thread) : Prop :=
  ∀ t, Free s t → s.lists.priority t = base t

/-- The release is one that gives the mutex away, the last that the thread owns. -/
structure ReleasesLast (s : System Mutex Other Thread) (m : Mutex) (t : Thread) : Prop where
  owner : (s.mutex m).owner = some t
  hold : (s.mutex m).hold = 1
  last : ∀ m', m' ≠ m → (s.mutex m').owner ≠ some t

/-- The mutex that a thread releases last was taken at its base priority; an explicit
change of the priority of a thread without mutexes is back to the base. -/
def Good (base : Thread → Nat) (s : System Mutex Other Thread) :
    Event Mutex Other Thread → Prop
  | .release m t => ReleasesLast s m t → (s.mutex m).originalPriority = base t
  | .changePriority t priority => Free s t → priority = base t
  | _ => True

/-! ## The steps -/

omit [DecidableEq Mutex] [DecidableEq Other] [DecidableEq Thread] in
/-- Owners and priorities stay. -/
theorem Restored.congr {base : Thread → Nat} {s s' : System Mutex Other Thread}
    (h : Restored base s) (howner : ∀ m, (s'.mutex m).owner = (s.mutex m).owner)
    (hprio : ∀ t, Free s t → s'.lists.priority t = s.lists.priority t) : Restored base s' := by
  intro t ht
  have hfree : Free s t := fun m ho => ht m ((howner m).trans ho)
  rw [hprio t hfree]
  exact h t hfree

theorem Restored.take {base : Thread → Nat} {s : System Mutex Other Thread}
    (h : Restored base s) (hok : Ok s) (m : Mutex) (t : Thread) (time : Int) :
    Restored base (s.rtMutexTake m t time).1 := by
  unfold System.rtMutexTake
  split
  · refine h.congr (fun m' => ?_) fun u _ => by simp [System.setMutex, System.setError]
    by_cases hm : m' = m
    · subst hm
      rw [setMutex_self]
    · rw [setMutex_ne _ _ hm]
      rfl
  · split
    -- the mutex had no owner
    · rename_i hv
      intro u hu
      have hnone := hok.owner_of_value hv
      have hfree : Free s u := by
        intro m' ho
        by_cases hm : m' = m
        · rw [hm, hnone] at ho
          cases ho
        · refine hu m' ?_
          rw [System.own, setMutex_ne _ _ hm]
          exact ho
      rw [← h u hfree]
      exact WaitLists.priority_setError _ _ _ _
    · split
      · exact h.congr (fun _ => rfl) fun u _ => WaitLists.priority_setError _ _ _ _
      -- only an owner is raised
      · refine h.congr (fun _ => rfl) fun u hu => ?_
        rw [System.waitFor, WaitLists.priority_startTimer, WaitLists.priority_rtIpcListSuspend]
        obtain ⟨o, ho, heq⟩ | ⟨-, heq⟩ := raiseOwner_cases (s.setError t .eok) m t
        · have huo : u ≠ o := fun heq => hu m (heq ▸ ho.1)
          rw [heq, WaitLists.priority_changePriority_ne _ _ huo]
          exact WaitLists.priority_setError _ _ _ _
        · rw [heq]
          exact WaitLists.priority_setError _ _ _ _

omit [DecidableEq Mutex] [DecidableEq Other] in
/-- The owner's priority after the outermost release, and that of the others. -/
theorem priority_restoreOwner (s : System Mutex Other Thread) (m : Mutex) (t u : Thread) :
    (s.restoreOwner m t).lists.priority u =
      if u = t then (s.mutex m).originalPriority else s.lists.priority u := by
  unfold System.restoreOwner
  split
  · by_cases hut : u = t
    · rw [if_pos hut, hut]
      exact WaitLists.priority_changePriority_self _ _ _
    · rw [if_neg hut]
      exact WaitLists.priority_changePriority_ne _ _ hut
  · rename_i heq
    by_cases hut : u = t
    · rw [if_pos hut, hut]
      exact (not_not.mp heq).symm
    · rw [if_neg hut]

omit [DecidableEq Other] in
theorem priority_passOn (s : System Mutex Other Thread) (m : Mutex) (u : Thread) :
    (s.passOn m).lists.priority u = s.lists.priority u := by
  unfold System.passOn
  split
  · exact WaitLists.priority_rtIpcListResume _ _ _
  · rfl

omit [DecidableEq Other] in
theorem owner_passOn (s : System Mutex Other Thread) (m m' : Mutex) :
    ((s.passOn m).mutex m').owner =
      if m' = m then (s.lists.list (.inl m)).head? else (s.mutex m').owner := by
  unfold System.passOn
  split
  · rename_i v rest hl
    by_cases hm : m' = m
    · subst hm
      rw [if_pos rfl, hl]
      exact congrArg RtMutex.owner (setMutex_self s m' _)
    · rw [if_neg hm]
      exact congrArg RtMutex.owner (setMutex_ne s _ hm)
  · rename_i hl
    by_cases hm : m' = m
    · subst hm
      rw [if_pos rfl, hl, setMutex_self]
      rfl
    · rw [if_neg hm, setMutex_ne s _ hm]

/-- The state after the outermost release. -/
def released (s : System Mutex Other Thread) (m : Mutex) (t : Thread) :
    System Mutex Other Thread :=
  ((s.setMutex m { s.mutex m with hold := 0 }).restoreOwner m t).passOn m

omit [DecidableEq Other] in
theorem priority_released (s : System Mutex Other Thread) (m : Mutex) (t u : Thread) :
    (released s m t).lists.priority u =
      if u = t then (s.mutex m).originalPriority else s.lists.priority u := by
  rw [released, priority_passOn, priority_restoreOwner, setMutex_self]
  rfl

omit [DecidableEq Other] in
theorem owner_released (s : System Mutex Other Thread) (m : Mutex) (t : Thread) {m' : Mutex}
    (hm : m' ≠ m) : ((released s m t).mutex m').owner = (s.mutex m').owner := by
  rw [released, owner_passOn, if_neg hm, Ok.restoreOwner_mutex, setMutex_ne _ _ hm]

omit [DecidableEq Other] in
/-- A release that is not the outermost leaves owners and priorities. -/
theorem release_cases (s : System Mutex Other Thread) (m : Mutex) (t : Thread) :
    ((s.mutex m).owner = some t ∧ (s.mutex m).hold = 1 ∧
      (s.rtMutexRelease m t).1 = released s m t) ∨
    (¬ ((s.mutex m).owner = some t ∧ (s.mutex m).hold = 1) ∧
      (∀ m', ((s.rtMutexRelease m t).1.mutex m').owner = (s.mutex m').owner) ∧
      ∀ u, (s.rtMutexRelease m t).1.lists.priority u = s.lists.priority u) := by
  unfold System.rtMutexRelease
  split
  · rename_i ho
    exact .inr ⟨fun h => ho h.1, fun _ => rfl, fun u => WaitLists.priority_setError _ _ _ _⟩
  · rename_i ho
    split
    · rename_i hh
      exact .inl ⟨not_not.mp ho, by bv_omega, rfl⟩
    · rename_i hh
      refine .inr ⟨fun h => hh (by rw [h.2]; rfl), fun m' => ?_, fun u => rfl⟩
      by_cases hm : m' = m
      · subst hm
        rw [setMutex_self]
      · rw [setMutex_ne _ _ hm]

omit [DecidableEq Other] in
theorem Restored.release {base : Thread → Nat} {s : System Mutex Other Thread}
    (h : Restored base s) {m : Mutex} {t : Thread} (hgood : Good base s (.release m t)) :
    Restored base (s.rtMutexRelease m t).1 := by
  obtain ⟨hown, hhold, heq⟩ | ⟨-, howner, hprio⟩ := release_cases s m t
  · rw [heq]
    intro u hu
    rw [priority_released]
    have hother : ∀ m', m' ≠ m → (s.mutex m').owner ≠ some u := fun m' hm ho =>
      hu m' ((owner_released s m t hm).trans ho)
    by_cases hut : u = t
    · subst hut
      rw [if_pos rfl]
      exact hgood ⟨hown, hhold, hother⟩
    · rw [if_neg hut]
      refine h u fun m' ho => ?_
      by_cases hm : m' = m
      · rw [hm, hown] at ho
        exact hut (Option.some.inj ho).symm
      · exact hother m' hm ho
  · exact h.congr howner fun u _ => hprio u

theorem Restored.step {base : Thread → Nat} {s s' : System Mutex Other Thread}
    {e : Event Mutex Other Thread} (h : Restored base s) (hok : Ok s) (hgood : Good base s e)
    (hstep : step s e = some s') : Restored base s' := by
  cases e with
  | take m t time =>
    obtain ⟨-, heq⟩ := Option.ite_none_right_eq_some.mp hstep
    obtain rfl := Option.some.inj heq
    exact h.take hok m t time
  | release m t =>
    obtain ⟨-, heq⟩ := Option.ite_none_right_eq_some.mp hstep
    obtain rfl := Option.some.inj heq
    exact h.release hgood
  | wait o t time =>
    obtain ⟨-, heq⟩ := Option.ite_none_right_eq_some.mp hstep
    obtain rfl := Option.some.inj heq
    exact h.congr (fun _ => rfl) fun u _ => by simp [System.waitOn]
  | wake o =>
    obtain rfl := Option.some.inj hstep
    exact h.congr (fun _ => rfl) fun u _ => WaitLists.priority_rtIpcListResume _ _ _
  | wakeThread o t =>
    obtain ⟨-, heq⟩ := Option.ite_none_right_eq_some.mp hstep
    obtain rfl := Option.some.inj heq
    exact h.congr (fun _ => rfl) fun u _ => WaitLists.priority_rtThreadResume _ _ _
  | timeout t =>
    obtain ⟨-, heq⟩ := Option.ite_none_right_eq_some.mp hstep
    obtain rfl := Option.some.inj heq
    exact h.congr (fun _ => rfl) fun u _ => WaitLists.priority_readied _ _ _ _
  | run t =>
    obtain ⟨-, heq⟩ := Option.ite_none_right_eq_some.mp hstep
    obtain rfl := Option.some.inj heq
    exact h.congr (fun _ => rfl) fun u _ => rfl
  | changePriority t priority =>
    obtain rfl := Option.some.inj hstep
    intro u hu
    by_cases hut : u = t
    · subst hut
      exact (WaitLists.priority_changePriority_self _ _ _).trans (hgood hu)
    · exact (WaitLists.priority_changePriority_ne _ _ hut).trans (h u hu)

theorem Restored.good {base : Thread → Nat} {s s' : System Mutex Other Thread}
    {e : Event Mutex Other Thread} (h : Restored base s') (hok : Ok s)
    (hstep : MutexSystem.step s e = some s') : Good base s e := by
  cases e with
  | release m t =>
    obtain ⟨ht, heq⟩ := Option.ite_none_right_eq_some.mp hstep
    obtain rfl := Option.some.inj heq
    intro hlast
    obtain ⟨-, -, heq⟩ | ⟨hnot, -, -⟩ := release_cases s m t
    · rw [heq] at h
      have hfree : Free (released s m t) t := by
        intro m' ho
        by_cases hm : m' = m
        -- the new owner has waited, and the thread has not
        · subst hm
          rw [released, owner_passOn, if_pos rfl] at ho
          refine hok.lists.ready_notMem ht.1 (.inl m') (List.mem_of_head? ?_)
          rw [← ho]
          unfold System.restoreOwner
          split
          · rfl
          · rfl
        · exact hlast.last m' hm ((owner_released s m t hm).symm.trans ho)
      have := h t hfree
      rwa [priority_released, if_pos rfl] at this
    · exact absurd ⟨hlast.owner, hlast.hold⟩ hnot
  | changePriority t priority =>
    obtain rfl := Option.some.inj hstep
    exact fun hfree => (WaitLists.priority_changePriority_self _ _ _).symm.trans (h t hfree)
  | take | wait | wake | wakeThread | timeout | run => trivial

/-! ## Whole runs -/

/-- Threads without mutexes have their base priorities throughout exactly the runs in
which the mutex that a thread releases last was taken at that priority. -/
theorem restored_throughout_iff (flag : Mutex ⊕ Other → IpcFlag) (base : Thread → Nat)
    (es : List (Event Mutex Other Thread)) :
    Throughout step (Restored base) (start flag base) es ↔
      Along step (Good base) (start flag base) es :=
  throughout_iff_along (J := fun s => Ok s ∧ Restored base s) (fun _ h => h.2)
    (fun _ _ _ h hg hstep => ⟨h.1.step hstep, h.2.step h.1 hg hstep⟩)
    (fun _ _ _ h hstep hr => hr.good h.1 hstep) ⟨ok_start flag base, fun _ _ => rfl⟩ es

/-- A thread of priority 20 (`false`) that is raised to 5 takes a second mutex (`true`) and
releases that last. -/
theorem raised_priority_stays :
    ¬ Throughout (@step Bool Empty Bool _ _ _) (Restored fun t => if t then 5 else 20)
      (start (fun _ => .fifo) fun t => if t then 5 else 20)
      [.take false false (-1), .take false true (-1), .take true false (-1),
        .release false false, .release true false] := by
  intro h
  have hrun : ∃ s, run (@step Bool Empty Bool _ _ _)
      (start (fun _ => .fifo) fun t => if t then 5 else 20)
      [.take false false (-1), .take false true (-1), .take true false (-1),
        .release false false, .release true false] = some s ∧
      (s.mutex false).owner = some true ∧ (s.mutex true).owner = none ∧
      s.lists.priority false = 5 := ⟨_, rfl, rfl, rfl, rfl⟩
  obtain ⟨s, hs, hfalse, htrue, hprio⟩ := hrun
  have hfree : Free s false := by
    intro m ho
    cases m with
    | false => rw [hfalse] at ho; cases ho
    | true => rw [htrue] at ho; cases ho
  have := h.last hs false hfree
  rw [hprio] at this
  exact absurd this (by decide)

end ControlRTT.Kernel.Inheritance
