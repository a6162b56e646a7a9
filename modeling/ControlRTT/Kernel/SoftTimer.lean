import ControlRTT.Kernel.Timer

/-! # The soft timer check (timer.c)

One call of `rt_soft_timer_check`, with timeout functions that start, stop, delete and
control any timers and take any time. The loop saves the node behind the timer it fires
and goes on from it, whatever the timeout function has done with it meanwhile.
A call returns and fires no stopped timer exactly if the node it goes on from is always
still linked when it has expired, and from some turn on no timer expires that was
started during the call (`returns_iff`). -/
namespace ControlRTT.Kernel.SoftTimer
open ControlRTT.Lib ControlRTT.Lib.CInt ControlRTT.Kernel.Timer

/-- The timers at a point of a call, with those that have been stopped or deleted and
not started since, and those that have been started since the call began. -/
structure State (Id : Type) where
  timers : Timers Id
  tick : Nat
  stopped : Id → Bool := fun _ => false
  started : Id → Bool := fun _ => false

variable {Id : Type} [DecidableEq Id]

/-- What a timeout function does. -/
inductive Op (Id : Type) where
  | tick
  | start (t : Id)
  | stop (t : Id)
  | delete (t : Id)
  | setTime (t : Id) (time : Nat)
  | setPeriodic (t : Id) (periodic : Bool)

namespace State

def update (f : Id → Bool) (t : Id) (b : Bool) : Id → Bool := fun u => if u = t then b else f u

def start (s : State Id) (t : Id) : State Id :=
  { s with
    timers := s.timers.rtTimerStart s.tick t
    stopped := update s.stopped t false
    started := update s.started t true }

/-- A timer has been stopped when the call returned `RT_EOK`. -/
def stop (s : State Id) (t : Id) : State Id :=
  { s with
    timers := (s.timers.rtTimerStop t).1
    stopped := if (s.timers.rtTimerStop t).2 then update s.stopped t true else s.stopped }

/-- `rt_timer_delete` and `rt_timer_detach` take a timer out without a look at its flag. -/
def delete (s : State Id) (t : Id) : State Id :=
  { s with
    timers := s.timers.rtTimerRemove t
    stopped := update s.stopped t true }

def op (s : State Id) : Op Id → State Id
  | .tick => { s with tick := u32 (s.tick + 1) }
  | .start t => s.start t
  | .stop t => s.stop t
  | .delete t => s.delete t
  | .setTime t time => { s with timers := s.timers.controlSetTime t time }
  | .setPeriodic t periodic => { s with timers := s.timers.controlSetPeriodic t periodic }

/-- What the loop does once the timeout function has returned. -/
def afterTimeout (s : State Id) (t : Id) : State Id :=
  if (s.timers.timer t).periodic ∧ (s.timers.timer t).activated then
    State.start { s with timers := s.timers.setActivated t false } t
  else { s with timers := s.timers.setActivated t false }

end State

/-- The variables at the head of the loop; `fires` counts the turns. -/
structure Loop (Id : Type) where
  state : State Id
  n : Option Id
  currentTick : Nat
  fires : Nat := 0

/-- The timeout function that is called in the turn with this number. -/
abbrev Behaviour (Id : Type) := Nat → List (Op Id)

def Loop.fire (behave : Behaviour Id) (l : Loop Id) (t : Id) : Loop Id :=
  let s := (behave l.fires).foldl State.op
    { l.state with timers := l.state.timers.rtTimerRemove t }
  { state := s.afterTimeout t
    n := l.state.timers.softNext t
    currentTick := s.tick
    fires := l.fires + 1 }

/-- The loop fires this timer next. -/
def Loop.Fires (l : Loop Id) (t : Id) : Prop :=
  l.n = some t ∧ l.state.timers.Reached l.currentTick t

/-- One turn of the loop; `none` when it ends. -/
def turn (behave : Behaviour Id) (l : Loop Id) : Option (Loop Id) :=
  l.n.bind fun t =>
    if l.state.timers.Reached l.currentTick t then some (l.fire behave t) else none

def turns (behave : Behaviour Id) : Nat → Loop Id → Option (Loop Id)
  | 0, l => some l
  | m + 1, l => (turn behave l).bind (turns behave m)

/-- The head of the loop, when `rt_soft_timer_check` is called. -/
def enter (s : State Id) : Loop Id where
  state := { s with started := fun _ => false }
  n := (s.timers.list .soft).head?
  currentTick := s.tick

/-! ## What a call should do, and when it does -/

def Returns (behave : Behaviour Id) (s : State Id) : Prop :=
  ∃ m, turns behave m (enter s) = none

/-- No stopped timer is fired. -/
def SparesStopped (behave : Behaviour Id) (s : State Id) : Prop :=
  ∀ m l t, turns behave m (enter s) = some l → l.Fires t → l.state.stopped t = false

/-- The expired timer that the loop goes on from is still linked. -/
def KeepsSuccessor (behave : Behaviour Id) (s : State Id) : Prop :=
  ∀ m l t, turns behave m (enter s) = some l → l.Fires t → l.state.timers.Linked t

/-- From some turn on, no timer that was started during the call has expired when the
loop comes to it. -/
def StopsRefiring (behave : Behaviour Id) (s : State Id) : Prop :=
  ∃ k, ∀ m l t, k ≤ m → turns behave m (enter s) = some l → l.Fires t →
    l.state.started t = false

/-- A linked timer is not stopped. -/
structure State.Ok (s : State Id) : Prop where
  timers : s.timers.Ok
  live : ∀ t, s.timers.Linked t → s.stopped t = false

/-! ## The operations -/

/-- The soft timers that are linked and have not been started during the call. -/
def State.waiting (s : State Id) : Nat := (s.timers.list .soft).countP fun t => !s.started t

/-- What timeout functions can do to the state, in terms of what the loop relies on. -/
structure Evolves (s s' : State Id) : Prop where
  ok : s'.Ok
  kind : ∀ u, (s'.timers.timer u).kind = (s.timers.timer u).kind
  known : ∀ u, s.timers.Linked u ∨ s.stopped u = true → s'.timers.Linked u ∨ s'.stopped u = true
  waiting : s'.waiting ≤ s.waiting

omit [DecidableEq Id] in
theorem State.Ok.refl {s : State Id} (h : s.Ok) : Evolves s s :=
  ⟨h, fun _ => rfl, fun _ => id, le_rfl⟩

omit [DecidableEq Id] in
theorem Evolves.trans {s s' s'' : State Id} (h : Evolves s s') (h' : Evolves s' s'') :
    Evolves s s'' where
  ok := h'.ok
  kind u := (h'.kind u).trans (h.kind u)
  known u hu := h'.known u (h.known u hu)
  waiting := h'.waiting.trans h.waiting

theorem update_self (f : Id → Bool) (t : Id) (b : Bool) : State.update f t b t = b := if_pos rfl

theorem update_ne (f : Id → Bool) {t u : Id} (b : Bool) (h : u ≠ t) :
    State.update f t b u = f u := if_neg h

/-- The last row with its started timers set apart. -/
theorem waiting_start (s : State Id) (hs : s.timers.Ok) (t : Id) :
    (s.start t).waiting ≤ s.waiting := by
  have hperm := hs.perm_list_rtTimerStart s.tick t .soft
  have herase : ∀ l : List Id, l.countP (fun u => !State.update s.started t true u) ≤
      l.countP fun u => !s.started u := by
    intro l
    refine List.countP_mono_left fun u _ hu => ?_
    by_cases hut : u = t
    · subst hut
      simp [update_self] at hu
    · rwa [update_ne _ _ hut] at hu
  have hsub : ((s.timers.list .soft).erase t).countP (fun u => !s.started u) ≤ s.waiting :=
    List.erase_sublist.countP_le
  change ((s.timers.rtTimerStart s.tick t).list .soft).countP
    (fun u => !State.update s.started t true u) ≤ s.waiting
  rw [hperm.countP_eq]
  split
  · rw [List.countP_cons, update_self]
    exact (herase _).trans hsub
  · exact (herase _).trans hsub

theorem State.Ok.start {s : State Id} (h : s.Ok) (t : Id) : Evolves s (s.start t) where
  ok := by
    refine ⟨h.timers.rtTimerStart s.tick t, fun u hu => ?_⟩
    by_cases hut : u = t
    · rw [hut]
      exact update_self _ t false
    · refine (update_ne _ false hut).trans (h.live u ?_)
      exact ((h.timers.linked_rtTimerStart s.tick t u).mp hu).resolve_left hut
  kind u := by
    by_cases hut : u = t
    · subst hut
      exact (congrArg RtTimer.kind (Timers.rtTimerStart_self s.timers s.tick u)).trans rfl
    · exact congrArg RtTimer.kind (Timers.rtTimerStart_ne s.timers s.tick hut)
  known u hu := by
    by_cases hut : u = t
    · exact .inl ((h.timers.linked_rtTimerStart s.tick t u).mpr (.inl hut))
    · refine hu.imp (fun hl => (h.timers.linked_rtTimerStart s.tick t u).mpr (.inr hl))
        fun hstop => ?_
      exact (update_ne _ false hut).trans hstop
  waiting := waiting_start s h.timers t

/-- A timer is taken out and counts as stopped. -/
theorem State.Ok.delete {s : State Id} (h : s.Ok) (t : Id) : Evolves s (s.delete t) where
  ok := by
    refine ⟨h.timers.rtTimerRemove t, fun u hu => ?_⟩
    obtain ⟨hut, hl⟩ := (h.timers.linked_rtTimerRemove t u).mp hu
    exact (update_ne _ true hut).trans (h.live u hl)
  kind _ := rfl
  known u hu := by
    by_cases hut : u = t
    · exact .inr (hut ▸ update_self _ t true)
    · refine hu.imp (fun hl => (h.timers.linked_rtTimerRemove t u).mpr ⟨hut, hl⟩) fun hstop => ?_
      exact (update_ne _ true hut).trans hstop
  waiting := by
    unfold State.waiting State.delete
    rw [Timers.list_rtTimerRemove]
    exact List.erase_sublist.countP_le

/-- A timer is changed and stays in its place. -/
theorem State.Ok.setTimer {s : State Id} (h : s.Ok) {t : Id} {b : RtTimer}
    (hb : b.kind = (s.timers.timer t).kind) :
    Evolves s { s with timers := s.timers.setTimer t b } where
  ok := ⟨h.timers.setTimer hb, fun u hu => h.live u ((Timers.linked_setTimer _ hb u).mp hu)⟩
  kind := Timers.kind_setTimer s.timers hb
  known u hu := hu.imp (Timers.linked_setTimer s.timers hb u).mpr id
  waiting := le_rfl

theorem State.Ok.stop {s : State Id} (h : s.Ok) (t : Id) : Evolves s (s.stop t) := by
  cases hact : (s.timers.timer t).activated with
  | false =>
    have heq : s.stop t = s := by simp [State.stop, Timers.rtTimerStop, hact]
    rw [heq]
    exact h.refl
  | true =>
    have heq : s.stop t = { s.delete t with
        timers := (s.delete t).timers.setActivated t false } := by
      simp [State.stop, State.delete, Timers.rtTimerStop, hact]
    rw [heq]
    exact (h.delete t).trans ((h.delete t).ok.setTimer rfl)

theorem State.Ok.op {s : State Id} (h : s.Ok) (o : Op Id) : Evolves s (s.op o) := by
  cases o with
  | tick => exact ⟨⟨h.timers, h.live⟩, fun _ => rfl, fun _ => id, le_rfl⟩
  | start t => exact h.start t
  | stop t => exact h.stop t
  | delete t => exact h.delete t
  | setTime t time => exact h.setTimer rfl
  | setPeriodic t periodic => exact h.setTimer rfl

theorem State.Ok.ops {s : State Id} (h : s.Ok) (os : List (Op Id)) :
    Evolves s (os.foldl State.op s) := by
  induction os generalizing s with
  | nil => exact h.refl
  | cons o os ih => exact (h.op o).trans (ih (h.op o).ok)

theorem State.Ok.afterTimeout {s : State Id} (h : s.Ok) (t : Id) :
    Evolves s (s.afterTimeout t) := by
  have hclear : Evolves s { s with timers := s.timers.setActivated t false } := h.setTimer rfl
  unfold State.afterTimeout
  split
  · exact hclear.trans (hclear.ok.start t)
  · exact hclear

/-! ## The turns -/

/-- The loop goes on from the list, or from a soft timer that is linked or was stopped. -/
structure Loop.Ok (l : Loop Id) : Prop where
  state : l.state.Ok
  kind : ∀ t, l.n = some t → (l.state.timers.timer t).kind = .soft
  known : ∀ t, l.n = some t → l.state.timers.Linked t ∨ l.state.stopped t = true

omit [DecidableEq Id] in
theorem Loop.Ok.stopped_iff {l : Loop Id} (h : l.Ok) {t : Id} (ht : l.n = some t) :
    l.state.stopped t = false ↔ l.state.timers.Linked t := by
  refine ⟨fun hf => (h.known t ht).resolve_right ?_, h.state.live t⟩
  simp [hf]

omit [DecidableEq Id] in
theorem mem_of_linked {s : Timers Id} {t : Id} (hk : (s.timer t).kind = .soft)
    (h : s.Linked t) : t ∈ s.list .soft := hk ▸ h

/-- The node that is saved is another linked timer, or the fired one if that is not
linked any more. -/
theorem softNext_cases (s : Timers Id) (hs : s.Ok) {t u : Id} (h : s.softNext t = some u) :
    (u ≠ t ∧ u ∈ s.list .soft) ∨ (u = t ∧ t ∉ s.list .soft) := by
  unfold Timers.softNext at h
  split at h
  · rename_i ht
    left
    obtain ⟨front, back, heq⟩ := List.append_of_mem ht
    have hnodup : (front ++ [t] ++ back).Nodup := by
      have := (hs.rows .soft).nodup_base
      change (s.list .soft).Nodup at this
      rwa [heq, List.append_cons] at this
    have hafter := SkipList.after_append hnodup
    rw [List.getLast?_concat] at hafter
    rw [heq, List.append_cons, hafter] at h
    have hu : u ∈ back := List.mem_of_head? h
    refine ⟨fun hut => ?_, ?_⟩
    · refine (List.nodup_append.mp hnodup).2.2 t ?_ u hu hut.symm
      exact List.mem_append_right front List.mem_cons_self
    · rw [heq]
      exact List.mem_append_right front (List.mem_cons_of_mem t hu)
  · rename_i ht
    exact .inr ⟨(Option.some.inj h).symm, ht⟩

/-- The state when the timeout function is called: the fired timer is not linked. -/
theorem State.Ok.removed {s : State Id} (h : s.Ok) (t : Id) :
    ({ s with timers := s.timers.rtTimerRemove t } : State Id).Ok :=
  ⟨h.timers.rtTimerRemove t, fun u hu =>
    h.live u ((h.timers.linked_rtTimerRemove t u).mp hu).2⟩

/-- From the call of the timeout function to the next turn. -/
theorem Loop.Ok.evolves {l : Loop Id} (h : l.Ok) (behave : Behaviour Id) (t : Id) :
    Evolves { l.state with timers := l.state.timers.rtTimerRemove t }
      (l.fire behave t).state := by
  have hops := (h.state.removed t).ops (behave l.fires)
  exact hops.trans (hops.ok.afterTimeout t)

theorem Loop.Ok.fire {l : Loop Id} (h : l.Ok) (behave : Behaviour Id) {t : Id}
    (ht : l.n = some t) : (l.fire behave t).Ok := by
  have hev := h.evolves behave t
  refine ⟨hev.ok, fun u hu => ?_, fun u hu => hev.known u ?_⟩
  · rw [hev.kind u]
    obtain ⟨-, hmem⟩ | ⟨rfl, -⟩ := softNext_cases _ h.state.timers hu
    · exact h.state.timers.kind .soft u hmem
    · exact h.kind u ht
  · obtain ⟨hut, hmem⟩ | ⟨rfl, hnot⟩ := softNext_cases _ h.state.timers hu
    · left
      have hk := h.state.timers.kind .soft u hmem
      exact (h.state.timers.linked_rtTimerRemove t u).mpr
        ⟨hut, by rw [Timers.Linked, hk]; exact hmem⟩
    · right
      exact (h.known u ht).resolve_left fun hl => hnot (mem_of_linked (h.kind u ht) hl)

theorem turn_eq_some {behave : Behaviour Id} {l l' : Loop Id} (h : turn behave l = some l') :
    ∃ t, l.Fires t ∧ l' = l.fire behave t := by
  obtain ⟨t, ht, h⟩ := Option.bind_eq_some_iff.mp h
  obtain ⟨hr, h⟩ := Option.ite_none_right_eq_some.mp h
  exact ⟨t, ⟨ht, hr⟩, (Option.some.inj h).symm⟩

theorem turn_of_fires {behave : Behaviour Id} {l : Loop Id} {t : Id} (h : l.Fires t) :
    turn behave l = some (l.fire behave t) := by
  unfold turn
  rw [h.1, Option.bind_some, if_pos h.2]

theorem Loop.Ok.run {l l' : Loop Id} (h : l.Ok) (behave : Behaviour Id) {m : Nat}
    (hm : turns behave m l = some l') : l'.Ok := by
  induction m generalizing l with
  | zero => exact Option.some.inj hm ▸ h
  | succ m ih =>
    obtain ⟨l₁, hturn, hrest⟩ := Option.bind_eq_some_iff.mp hm
    obtain ⟨t, ht, rfl⟩ := turn_eq_some hturn
    exact ih (h.fire behave ht.1) hrest

omit [DecidableEq Id] in
theorem State.Ok.enter {s : State Id} (h : s.Ok) : (enter s).Ok where
  state := ⟨h.timers, h.live⟩
  kind t ht := h.timers.kind .soft t (List.mem_of_head? ht)
  known t ht := by
    have hmem := List.mem_of_head? ht
    left
    change t ∈ s.timers.list (s.timers.timer t).kind
    rwa [h.timers.kind .soft t hmem]

/-! ## When a call returns -/

/-- A turn that fires a linked timer that was not started in the call leaves fewer such
timers. -/
theorem Loop.Ok.waiting_fire {l : Loop Id} (h : l.Ok) (behave : Behaviour Id) {t : Id}
    (ht : l.n = some t) (hlinked : l.state.timers.Linked t)
    (hnew : l.state.started t = false) :
    (l.fire behave t).state.waiting < l.state.waiting := by
  refine lt_of_le_of_lt (h.evolves behave t).waiting ?_
  have hmem := mem_of_linked (h.kind t ht) hlinked
  unfold State.waiting
  rw [Timers.list_rtTimerRemove, (List.perm_cons_erase hmem).countP_eq, List.countP_cons]
  simp [hnew]

/-- With such turns only, there are no more of them than waiting timers. -/
theorem Loop.Ok.turns_eq_none {l : Loop Id} (h : l.Ok) (behave : Behaviour Id) {n : Nat}
    (hn : l.state.waiting < n)
    (hall : ∀ m l' t, turns behave m l = some l' → l'.Fires t →
      l'.state.timers.Linked t ∧ l'.state.started t = false) : turns behave n l = none := by
  induction n generalizing l with
  | zero => exact absurd hn (Nat.not_lt_zero _)
  | succ n ih =>
    cases hturn : turn behave l with
    | none => simp [turns, hturn]
    | some l' =>
      obtain ⟨t, ht, rfl⟩ := turn_eq_some hturn
      obtain ⟨hlinked, hnew⟩ := hall 0 l t rfl ht
      have hlt := h.waiting_fire behave ht.1 hlinked hnew
      have hrest := ih (h.fire behave ht.1) (by omega) fun m l' u hm hu =>
        hall (m + 1) l' u (by simp [turns, hturn, hm]) hu
      simp [turns, hturn, hrest]

theorem turns_add (behave : Behaviour Id) (k m : Nat) (l : Loop Id) :
    turns behave (k + m) l = (turns behave k l).bind (turns behave m) := by
  induction k generalizing l with
  | zero => simp [turns]
  | succ k ih =>
    rw [Nat.succ_add, turns, turns, Option.bind_assoc]
    simp only [ih]

/-- A call fires no stopped timer and returns exactly if the loop always goes on from a
linked timer and does not go on for ever with timers started meanwhile. -/
theorem returns_iff (behave : Behaviour Id) {s : State Id} (hs : s.Ok) :
    SparesStopped behave s ∧ Returns behave s ↔
      KeepsSuccessor behave s ∧ StopsRefiring behave s := by
  have hok : ∀ m l, turns behave m (enter s) = some l → l.Ok := fun m l hm =>
    hs.enter.run behave hm
  have hspares : SparesStopped behave s ↔ KeepsSuccessor behave s :=
    ⟨fun h m l t hm ht => ((hok m l hm).stopped_iff ht.1).mp (h m l t hm ht),
      fun h m l t hm ht => ((hok m l hm).stopped_iff ht.1).mpr (h m l t hm ht)⟩
  refine ⟨fun ⟨hstop, hret⟩ => ⟨hspares.mp hstop, ?_⟩, fun ⟨hkeep, hrefire⟩ =>
    ⟨hspares.mpr hkeep, ?_⟩⟩
  · obtain ⟨k, hk⟩ := hret
    refine ⟨k, fun m l t hkm hm _ => ?_⟩
    obtain ⟨d, rfl⟩ := Nat.exists_eq_add_of_le hkm
    rw [turns_add, hk] at hm
    cases hm
  · obtain ⟨k, hk⟩ := hrefire
    cases hm : turns behave k (enter s) with
    | none => exact ⟨k, hm⟩
    | some l =>
      refine ⟨k + (l.state.waiting + 1), ?_⟩
      rw [turns_add, hm, Option.bind_some]
      refine (hok k l hm).turns_eq_none behave (Nat.lt_succ_self _) fun m l' t hm' ht => ?_
      have hrun : turns behave (k + m) (enter s) = some l' := by
        rw [turns_add, hm, Option.bind_some, hm']
      exact ⟨hkeep _ l' t hrun ht, hk _ l' t (Nat.le_add_right k m) hrun ht⟩

/-! ## A loop that does not end -/

/-- The loop goes on from an expired node that is its own successor. -/
structure Loop.Stuck (l : Loop Id) (t : Id) : Prop where
  next : l.n = some t
  unlinked : t ∉ l.state.timers.list .soft
  reached : l.state.timers.Reached l.currentTick t
  tick : l.state.tick = l.currentTick
  stopped : (l.state.timers.timer t).activated = false

theorem Loop.Stuck.turn {l : Loop Id} {t : Id} (h : l.Stuck t) {behave : Behaviour Id}
    (hidle : behave l.fires = []) : ∃ l', turn behave l = some l' ∧ l'.Stuck t ∧
      l'.fires = l.fires + 1 := by
  have hact : ((l.state.timers.rtTimerRemove t).timer t).activated = false := h.stopped
  have hstate : (l.fire behave t).state = { l.state with
      timers := (l.state.timers.rtTimerRemove t).setActivated t false } := by
    unfold Loop.fire State.afterTimeout
    rw [hidle]
    exact if_neg (by simp [hact])
  refine ⟨_, turn_of_fires ⟨h.next, h.reached⟩, ⟨?_, ?_, ?_, ?_, ?_⟩, rfl⟩
  · exact if_neg h.unlinked
  · rw [hstate]
    exact fun hmem =>
      h.unlinked (List.mem_of_mem_erase (Timers.list_rtTimerRemove _ t .soft ▸ hmem))
  · have hr := h.reached
    rw [← h.tick] at hr
    unfold Timers.Reached at hr ⊢
    rw [hstate, Timers.setActivated_self]
    change usub ((behave l.fires).foldl State.op _).tick _ < _
    rw [hidle]
    exact hr
  · rw [hstate]
    change l.state.tick = ((behave l.fires).foldl State.op _).tick
    rw [hidle]
    rfl
  · rw [hstate, Timers.setActivated_self]

/-- Timeout functions that do nothing leave it there for ever. -/
theorem Loop.Stuck.turns_ne_none {l : Loop Id} {t : Id} (h : l.Stuck t)
    {behave : Behaviour Id} (hidle : ∀ k, l.fires ≤ k → behave k = []) (m : Nat) :
    turns behave m l ≠ none := by
  induction m generalizing l with
  | zero => exact Option.some_ne_none l
  | succ m ih =>
    obtain ⟨l', hturn, hstuck, hfires⟩ := h.turn (hidle _ le_rfl)
    rw [turns, hturn, Option.bind_some]
    exact ih hstuck fun k hk => hidle k (by omega)

/-- Two timers, `false` before `true`, that both expire at tick 1. -/
def twoExpired : State Bool :=
  [Op.start false, .start true, .tick].foldl State.op
    { timers := rtTimerInit 0 3 fun _ => { initTick := 1, kind := .soft }, tick := 0 }

theorem ok_twoExpired : twoExpired.Ok := by
  have hinit : State.Ok { timers := rtTimerInit 0 3 fun _ : Bool => { initTick := 1, kind := .soft }
                          tick := 0 } :=
    ⟨Timers.ok_rtTimerInit 0 3 _, fun _ _ => rfl⟩
  exact (hinit.ops _).ok

theorem returns_iff_twoExpired :
    SparesStopped (fun _ => [.tick]) twoExpired ∧ Returns (fun _ => [.tick]) twoExpired ↔
      KeepsSuccessor (fun _ => [.tick]) twoExpired ∧
        StopsRefiring (fun _ => [.tick]) twoExpired :=
  returns_iff _ ok_twoExpired

/-- The timeout function of the first stops the second, which is then fired all the same,
and again and again. -/
theorem stopped_successor_is_fired :
    ¬ SparesStopped (fun k => if k = 0 then [.stop true] else []) twoExpired ∧
      ¬ Returns (fun k => if k = 0 then [.stop true] else []) twoExpired := by
  have hrun : ∃ l, turns (fun k => if k = 0 then [.stop true] else []) 1 (enter twoExpired) =
      some l ∧ l.state.stopped true = true ∧ l.fires = 1 ∧ l.Stuck true :=
    ⟨_, rfl, rfl, rfl, rfl, by decide, by decide, rfl, rfl⟩
  obtain ⟨l, hl, hstopped, hfires, hstuck⟩ := hrun
  refine ⟨fun h => ?_, fun ⟨m, hm⟩ => ?_⟩
  · have := h 1 l true hl ⟨hstuck.next, hstuck.reached⟩
    rw [hstopped] at this
    cases this
  · have hone : turns (fun k => if k = 0 then [.stop true] else []) (m + 1)
        (enter twoExpired) = none := by
      rw [turns_add, hm, Option.bind_none]
    rw [Nat.add_comm, turns_add, hl, Option.bind_some] at hone
    exact hstuck.turns_ne_none (fun k hk => if_neg (by omega)) m hone

end ControlRTT.Kernel.SoftTimer
