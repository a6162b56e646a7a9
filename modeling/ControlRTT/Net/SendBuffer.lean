import Mathlib.Data.Fintype.Basic
import ControlRTT.Lib.CInt
import ControlRTT.Lib.Runs

/-! # Sending AT commands (at_utils.c, at_client.c)

Every client formats its commands in the one static buffer, and the length is what `vsnprintf`
returns, the length that the whole text would have. What the devices get is what was to be sent if
every text fits the buffer and no client formats while another one's text is in use
(`sent_throughout`); a longer text is read from behind the buffer (`sent_behind`). -/
namespace ControlRTT.Net.SendBuffer
open ControlRTT.Lib.CInt ControlRTT.Lib.Runs

/-- `AT_CMD_MAX_LEN`, the size of `send_buf`. -/
def atCmdMaxLen : Nat := 128

/-- Where the holder of a client's lock is in `at_obj_exec_cmd`: `vsnprintf` has stored `i` bytes,
it has returned, its result is in `last_cmd_len`, or `rt_device_write` has sent `i` bytes of
`len`. -/
inductive Phase where
  | idle
  | formatting (text : List Byte) (i : Nat)
  | formatted (result : Nat)
  | stored
  | sending (i len : Nat)
  | waiting
  deriving DecidableEq, Repr

/-- `send_buf` with what stands behind it, `last_cmd_len`, the clients, what their devices have
got, the texts of their commands, and the offsets from `send_buf` that have been read. -/
structure SendBuf (Client : Type) where
  sendBuf : Nat → Byte
  lastCmdLen : Nat := 0
  phase : Client → Phase := fun _ => .idle
  device : Client → List Byte := fun _ => []
  commands : Client → List (List Byte) := fun _ => []
  offsets : List Nat := []

/-- `vsnprintf` as `rt_size_t`; a length that is no `int` is an error. -/
def vsnprintfResult (text : List Byte) : Nat :=
  if text.length < 2 ^ 31 then text.length else 2 ^ 32 - 1

inductive Event (Client : Type) where
  | execCmd (c : Client) (text : List Byte)
  | store (c : Client)
  | setLen (c : Client)
  | write (c : Client)
  | send (c : Client)
  | newline (c : Client)
  | exit (c : Client)

variable {Client : Type} [DecidableEq Client]

namespace SendBuf

def goto (s : SendBuf Client) (c : Client) (p : Phase) : SendBuf Client :=
  { s with phase := Function.update s.phase c p }

def put (s : SendBuf Client) (i : Nat) (b : Byte) : SendBuf Client :=
  { s with sendBuf := Function.update s.sendBuf i b }

/-- The device of `c` gets bytes. -/
def deliver (s : SendBuf Client) (c : Client) (bytes : List Byte) : SendBuf Client :=
  { s with device := Function.update s.device c (s.device c ++ bytes) }

@[simp] theorem goto_phase (s : SendBuf Client) (c : Client) (p : Phase) :
    (s.goto c p).phase c = p := by
  unfold goto
  exact Function.update_self _ _ _

/-- The next byte of `vsnprintf`, or the terminator after the last one. -/
def vsnprintf (s : SendBuf Client) (c : Client) (text : List Byte) (i : Nat) : SendBuf Client :=
  match (text.take (atCmdMaxLen - 1))[i]? with
  | some b => (s.put i b).goto c (.formatting text (i + 1))
  | none => (s.put i 0).goto c (.formatted (vsnprintfResult text))

end SendBuf

def step (s : SendBuf Client) : Event Client → Option (SendBuf Client)
  | .execCmd c text =>
    if s.phase c = .idle then
      some ({ s with commands := Function.update s.commands c (s.commands c ++ [text]) }.goto c
        (.formatting text 0))
    else none
  | .store c =>
    match s.phase c with
    | .formatting text i => some (s.vsnprintf c text i)
    | _ => none
  | .setLen c =>
    match s.phase c with
    | .formatted result => some ({ s with lastCmdLen := result }.goto c .stored)
    | _ => none
  | .write c => if s.phase c = .stored then some (s.goto c (.sending 0 s.lastCmdLen)) else none
  | .send c =>
    match s.phase c with
    | .sending i len =>
      if i < len then
        some (({ s with offsets := s.offsets ++ [i] }.deliver c [s.sendBuf i]).goto c
          (.sending (i + 1) len))
      else none
    | _ => none
  | .newline c =>
    match s.phase c with
    | .sending i len =>
      if i = len then some ((s.deliver c [0x0D, 0x0A]).goto c .waiting) else none
    | _ => none
  | .exit c => if s.phase c = .waiting then some (s.goto c .idle) else none

def start (memory : Nat → Byte) : SendBuf Client where
  sendBuf := memory

/-- What the device is to get for a command. -/
def line (text : List Byte) : List Byte := text.take (atCmdMaxLen - 1) ++ [0x0D, 0x0A]

/-- Each device has got its own commands, the last one perhaps in part, and nothing has been read
from behind the buffer. -/
structure Sent (s : SendBuf Client) : Prop where
  isPrefix : ∀ c, s.device c <+: (s.commands c).flatMap line
  complete : ∀ c, s.phase c = .idle ∨ s.phase c = .waiting →
    s.device c = (s.commands c).flatMap line
  inside : ∀ i ∈ s.offsets, i < atCmdMaxLen

/-- There is something in the buffer that is still to be sent. -/
def Using : Phase → Prop
  | .formatting _ i => 0 < i
  | .formatted _ => True
  | .stored => True
  | .sending i len => i < len
  | _ => False

/-- A text fits the buffer with its terminator, and no byte goes into the buffer while another
client is using it. -/
def Alone (s : SendBuf Client) : Event Client → Prop
  | .execCmd _ text => text.length < atCmdMaxLen
  | .store c => ∀ c', c' ≠ c → ¬Using (s.phase c')
  | _ => True

instance : DecidablePred Using
  | .formatting _ i => inferInstanceAs (Decidable (0 < i))
  | .sending i len => inferInstanceAs (Decidable (i < len))
  | .formatted _ | .stored => isTrue trivial
  | .idle | .waiting => isFalse id

instance [Fintype Client] (s : SendBuf Client) : DecidablePred (Alone s)
  | .execCmd _ text => inferInstanceAs (Decidable (text.length < atCmdMaxLen))
  | .store c => inferInstanceAs (Decidable (∀ c', c' ≠ c → ¬Using (s.phase c')))
  | .setLen _ | .write _ | .send _ | .newline _ | .exit _ => isTrue trivial

/-! ## The invariant -/

/-- The buffer begins with the first `n` bytes of the text. -/
def Buffered (s : SendBuf Client) (text : List Byte) (n : Nat) : Prop :=
  ∀ i < n, text[i]? = some (s.sendBuf i)

/-- All commands of the client have been sent but the last one, of which its device has got
`sent`. -/
def Begun (s : SendBuf Client) (c : Client) (text sent : List Byte) : Prop :=
  text.length < atCmdMaxLen ∧
    ∃ earlier, s.commands c = earlier ++ [text] ∧ s.device c = earlier.flatMap line ++ sent

def Own (s : SendBuf Client) (c : Client) : Phase → Prop
  | .idle | .waiting => s.device c = (s.commands c).flatMap line
  | .formatting text i => Begun s c text [] ∧ Buffered s text i
  | .formatted result => ∃ text, result = text.length ∧ Begun s c text [] ∧
      Buffered s text text.length
  | .stored => ∃ text, s.lastCmdLen = text.length ∧ Begun s c text [] ∧
      Buffered s text text.length
  | .sending i len => ∃ text, len = text.length ∧ Begun s c text (text.take i) ∧
      (i < text.length → Buffered s text text.length)

structure Inv (s : SendBuf Client) : Prop where
  own : ∀ c, Own s c (s.phase c)
  alone : ∀ c c', Using (s.phase c) → Using (s.phase c') → c = c'
  inside : ∀ i ∈ s.offsets, i < atCmdMaxLen

section
variable {s s' : SendBuf Client} {c : Client} {text bytes : List Byte} {p : Phase}

omit [DecidableEq Client]

theorem Begun.frame (h : Begun s c text bytes) (hdevice : s'.device c = s.device c)
    (hcommands : s'.commands c = s.commands c) : Begun s' c text bytes := by
  unfold Begun
  rw [hdevice, hcommands]
  exact h

/-- What another client does. -/
theorem Own.frame (h : Own s c p) (hdevice : s'.device c = s.device c)
    (hcommands : s'.commands c = s.commands c)
    (hbuf : Using p → s'.sendBuf = s.sendBuf ∧ s'.lastCmdLen = s.lastCmdLen) : Own s' c p := by
  have hbuffer : ∀ {text n}, Using p → Buffered s text n → Buffered s' text n :=
    fun hu hb i hi => by rw [(hbuf hu).1]; exact hb i hi
  cases p with
  | idle | waiting => exact hdevice.trans (h.trans (by rw [hcommands]))
  | formatting text i =>
    obtain ⟨hbegun, hbuffered⟩ := h
    refine ⟨hbegun.frame hdevice hcommands, ?_⟩
    cases i with
    | zero => exact fun i hi => absurd hi (Nat.not_lt_zero i)
    | succ i => exact hbuffer (Nat.succ_pos i) hbuffered
  | formatted result =>
    obtain ⟨text, hresult, hbegun, hbuffered⟩ := h
    exact ⟨text, hresult, hbegun.frame hdevice hcommands, hbuffer trivial hbuffered⟩
  | stored =>
    obtain ⟨text, hlen, hbegun, hbuffered⟩ := h
    exact ⟨text, (hbuf trivial).2.trans hlen, hbegun.frame hdevice hcommands,
      hbuffer trivial hbuffered⟩
  | sending i len =>
    obtain ⟨text, rfl, hbegun, hbuffered⟩ := h
    exact ⟨text, rfl, hbegun.frame hdevice hcommands, fun hi => hbuffer hi (hbuffered hi)⟩

/-- A step that takes the client `c` to the phase `p`. -/
theorem Inv.of_own (h : Inv s) (hp : s'.phase c = p) (hown : Own s' c p)
    (hphase : ∀ c', c' ≠ c → s'.phase c' = s.phase c')
    (hdevice : ∀ c', c' ≠ c → s'.device c' = s.device c')
    (hcommands : ∀ c', c' ≠ c → s'.commands c' = s.commands c')
    (hbuf : s'.sendBuf = s.sendBuf ∧ s'.lastCmdLen = s.lastCmdLen ∨
      ∀ c', c' ≠ c → ¬Using (s.phase c'))
    (halone : Using p → Using (s.phase c) ∨ ∀ c', c' ≠ c → ¬Using (s.phase c'))
    (hinside : ∀ i ∈ s'.offsets, i < atCmdMaxLen) : Inv s' := by
  subst hp
  refine ⟨fun c' => ?_, fun c₁ c₂ h₁ h₂ => ?_, hinside⟩
  · by_cases hc : c' = c
    · exact hc ▸ hown
    · rw [hphase c' hc]
      refine (h.own c').frame (hdevice c' hc) (hcommands c' hc) fun hu => ?_
      exact hbuf.resolve_right fun hnot => hnot c' hc hu
  · have hother : ∀ c', c' ≠ c → Using (s'.phase c) → ¬Using (s'.phase c') := fun c' hc hu hu' => by
      rw [hphase c' hc] at hu'
      obtain hu | hnot := halone hu
      · exact hc (h.alone c' c hu' hu)
      · exact hnot c' hc hu'
    by_cases hc₁ : c₁ = c
    · by_cases hc₂ : c₂ = c
      · exact hc₁.trans hc₂.symm
      · exact absurd h₂ (hother c₂ hc₂ (hc₁ ▸ h₁))
    · by_cases hc₂ : c₂ = c
      · exact absurd h₁ (hother c₁ hc₁ (hc₂ ▸ h₂))
      · rw [hphase c₁ hc₁] at h₁
        rw [hphase c₂ hc₂] at h₂
        exact h.alone c₁ c₂ h₁ h₂

theorem take_of_fits (h : text.length < atCmdMaxLen) : text.take (atCmdMaxLen - 1) = text :=
  List.take_of_length_le (by omega)

theorem line_of_fits (h : text.length < atCmdMaxLen) : line text = text ++ [0x0D, 0x0A] :=
  congrArg (· ++ _) (take_of_fits h)

variable [DecidableEq Client]

theorem Inv.execCmd (h : Inv s) (hidle : s.phase c = .idle) (hfits : text.length < atCmdMaxLen) :
    Inv ({ s with commands := Function.update s.commands c (s.commands c ++ [text]) }.goto c
      (.formatting text 0)) := by
  have hdevice := h.own c
  rw [hidle] at hdevice
  refine h.of_own (SendBuf.goto_phase _ _ _) ⟨⟨hfits, s.commands c, ?_, ?_⟩, ?_⟩
    (fun _ hc => Function.update_of_ne hc _ _) (fun _ _ => rfl)
    (fun _ hc => Function.update_of_ne hc _ _) (.inl ⟨rfl, rfl⟩)
    (fun hu => absurd hu (Nat.lt_irrefl 0)) h.inside
  · exact Function.update_self _ _ _
  · exact hdevice.trans (List.append_nil _).symm
  · exact fun i hi => absurd hi (Nat.not_lt_zero i)

theorem Inv.store {i : Nat} (h : Inv s) (hphase : s.phase c = .formatting text i)
    (halone : ∀ c', c' ≠ c → ¬Using (s.phase c')) : Inv (s.vsnprintf c text i) := by
  have hown := h.own c
  rw [hphase] at hown
  obtain ⟨⟨hfits, hbegun⟩, hbuffered⟩ := hown
  have hbefore : ∀ {j} (b : Byte), j < i → Function.update s.sendBuf i b j = s.sendBuf j :=
    fun b hj => Function.update_of_ne (Nat.ne_of_lt hj) _ _
  unfold SendBuf.vsnprintf
  rw [take_of_fits hfits]
  split
  · rename_i b hb
    refine h.of_own (SendBuf.goto_phase _ _ _) ⟨⟨hfits, hbegun⟩, fun j hj => ?_⟩
      (fun _ hc => Function.update_of_ne hc _ _) (fun _ _ => rfl) (fun _ _ => rfl) (.inr halone)
      (fun _ => .inr halone) h.inside
    change text[j]? = some (Function.update s.sendBuf i b j)
    obtain hlt | rfl := Nat.lt_succ_iff_lt_or_eq.mp hj
    · rw [hbefore b hlt]
      exact hbuffered j hlt
    · rw [Function.update_self, hb]
  · rename_i hend
    have hle : text.length ≤ i := List.getElem?_eq_none_iff.mp hend
    have hresult : vsnprintfResult text = text.length := if_pos (hfits.trans (by decide))
    refine h.of_own (SendBuf.goto_phase _ _ _)
      ⟨text, hresult, ⟨hfits, hbegun⟩, fun j hj => ?_⟩
      (fun _ hc => Function.update_of_ne hc _ _) (fun _ _ => rfl) (fun _ _ => rfl) (.inr halone)
      (fun _ => .inr halone) h.inside
    change text[j]? = some (Function.update s.sendBuf i 0 j)
    rw [hbefore 0 (hj.trans_le hle)]
    exact hbuffered j (hj.trans_le hle)

theorem Inv.setLen {result : Nat} (h : Inv s) (hphase : s.phase c = .formatted result) :
    Inv ({ s with lastCmdLen := result }.goto c .stored) := by
  have hown := h.own c
  rw [hphase] at hown
  have halone : ∀ c', c' ≠ c → ¬Using (s.phase c') := fun c' hc hu =>
    hc (h.alone c' c hu (by rw [hphase]; trivial))
  exact h.of_own (SendBuf.goto_phase _ _ _) hown (fun _ hc => Function.update_of_ne hc _ _)
    (fun _ _ => rfl) (fun _ _ => rfl) (.inr halone) (fun _ => .inr halone) h.inside

theorem Inv.write (h : Inv s) (hphase : s.phase c = .stored) :
    Inv (s.goto c (.sending 0 s.lastCmdLen)) := by
  have hown := h.own c
  rw [hphase] at hown
  obtain ⟨text, hlen, hbegun, hbuffered⟩ := hown
  exact h.of_own (SendBuf.goto_phase _ _ _) ⟨text, hlen, hbegun, fun _ => hbuffered⟩
    (fun _ hc => Function.update_of_ne hc _ _) (fun _ _ => rfl) (fun _ _ => rfl) (.inl ⟨rfl, rfl⟩)
    (fun _ => .inl (by rw [hphase]; trivial)) h.inside

theorem Inv.send {i len : Nat} (h : Inv s) (hphase : s.phase c = .sending i len) (hlt : i < len) :
    Inv (({ s with offsets := s.offsets ++ [i] }.deliver c [s.sendBuf i]).goto c
      (.sending (i + 1) len)) := by
  have hown := h.own c
  rw [hphase] at hown
  obtain ⟨text, rfl, ⟨hfits, earlier, hcommands, hdevice⟩, hbuffered⟩ := hown
  refine h.of_own (SendBuf.goto_phase _ _ _)
    ⟨text, rfl, ⟨hfits, earlier, hcommands, ?_⟩, fun _ => hbuffered hlt⟩
    (fun _ hc => Function.update_of_ne hc _ _) (fun _ hc => Function.update_of_ne hc _ _)
    (fun _ _ => rfl) (.inl ⟨rfl, rfl⟩) (fun _ => .inl (by rw [hphase]; exact hlt)) fun j hj => ?_
  · change Function.update s.device c _ c = _
    rw [Function.update_self, hdevice, List.append_assoc, List.take_add_one, hbuffered hlt i hlt,
      Option.toList_some]
  · rcases List.mem_append.mp hj with hj | hj
    · exact h.inside j hj
    · rw [List.mem_singleton.mp hj]
      exact hlt.trans hfits

theorem Inv.newline {len : Nat} (h : Inv s) (hphase : s.phase c = .sending len len) :
    Inv ((s.deliver c [0x0D, 0x0A]).goto c .waiting) := by
  have hown := h.own c
  rw [hphase] at hown
  obtain ⟨text, rfl, ⟨hfits, earlier, hcommands, hdevice⟩, -⟩ := hown
  refine h.of_own (p := .waiting) (SendBuf.goto_phase _ _ _) ?_
    (fun _ hc => Function.update_of_ne hc _ _) (fun _ hc => Function.update_of_ne hc _ _)
    (fun _ _ => rfl) (.inl ⟨rfl, rfl⟩) False.elim h.inside
  change Function.update s.device c _ c = (s.commands c).flatMap line
  rw [Function.update_self, hdevice, hcommands, List.take_length, List.flatMap_append,
    List.flatMap_singleton, line_of_fits hfits, List.append_assoc]

theorem Inv.exit (h : Inv s) (hphase : s.phase c = .waiting) : Inv (s.goto c .idle) := by
  have hown := h.own c
  rw [hphase] at hown
  exact h.of_own (p := .idle) (SendBuf.goto_phase _ _ _) hown
    (fun _ hc => Function.update_of_ne hc _ _) (fun _ _ => rfl) (fun _ _ => rfl) (.inl ⟨rfl, rfl⟩)
    False.elim h.inside

theorem Inv.step {e : Event Client} (h : Inv s) (halone : Alone s e) (hstep : step s e = some s') :
    Inv s' := by
  unfold SendBuffer.step at hstep
  split at hstep
  · obtain ⟨hidle, heq⟩ := Option.ite_none_right_eq_some.mp hstep
    exact Option.some.inj heq ▸ h.execCmd hidle halone
  · split at hstep
    · rename_i hphase
      exact Option.some.inj hstep ▸ h.store hphase halone
    · cases hstep
  · split at hstep
    · rename_i hphase
      exact Option.some.inj hstep ▸ h.setLen hphase
    · cases hstep
  · obtain ⟨hphase, heq⟩ := Option.ite_none_right_eq_some.mp hstep
    exact Option.some.inj heq ▸ h.write hphase
  · split at hstep
    · rename_i hphase
      obtain ⟨hlt, heq⟩ := Option.ite_none_right_eq_some.mp hstep
      exact Option.some.inj heq ▸ h.send hphase hlt
    · cases hstep
  · split at hstep
    · rename_i hphase
      obtain ⟨rfl, heq⟩ := Option.ite_none_right_eq_some.mp hstep
      exact Option.some.inj heq ▸ h.newline hphase
    · cases hstep
  · obtain ⟨hphase, heq⟩ := Option.ite_none_right_eq_some.mp hstep
    exact Option.some.inj heq ▸ h.exit hphase

omit [DecidableEq Client] in
theorem Inv.sent (h : Inv s) : Sent s := by
  have hbegun : ∀ {c text bytes}, bytes <+: text → Begun s c text bytes →
      s.device c <+: (s.commands c).flatMap line := by
    rintro c text bytes hbytes ⟨hfits, earlier, hcommands, hdevice⟩
    rw [hcommands, hdevice, List.flatMap_append, List.flatMap_singleton, line_of_fits hfits]
    exact List.prefix_append_right_inj _ |>.mpr (hbytes.trans (List.prefix_append _ _))
  refine ⟨fun c => ?_, fun c hc => ?_, h.inside⟩
  · have hown := h.own c
    cases hp : s.phase c with
    | idle | waiting =>
      rw [hp] at hown
      exact hown ▸ List.prefix_refl _
    | formatting text i =>
      rw [hp] at hown
      exact hbegun List.nil_prefix hown.1
    | formatted result | stored =>
      rw [hp] at hown
      obtain ⟨text, -, hown, -⟩ := hown
      exact hbegun List.nil_prefix hown
    | sending i len =>
      rw [hp] at hown
      obtain ⟨text, -, hown, -⟩ := hown
      exact hbegun (List.take_prefix i text) hown
  · have hown := h.own c
    rcases hc with hc | hc <;> rw [hc] at hown <;> exact hown

end

omit [DecidableEq Client] in
theorem inv_start (memory : Nat → Byte) : Inv (start memory : SendBuf Client) :=
  ⟨fun _ => rfl, fun _ _ hu => hu.elim, nofun⟩

/-- Whatever the clients send, and however they take turns. -/
theorem sent_throughout (memory : Nat → Byte) (es : List (Event Client))
    (h : Along step Alone (start memory) es) : Throughout step Sent (start memory) es :=
  throughout_of_along (fun _ h => h.sent) (fun _ _ _ h halone hstep => h.step halone hstep)
    (inv_start memory) h

/-- Two clients, one after the other. -/
theorem sent_throughout_two :
    Throughout step Sent (start fun _ => 0)
      [.execCmd false [0x41], .store false, .store false, .setLen false, .write false, .send false,
        .newline false, .execCmd true [0x42], .store true, .store true, .setLen true, .write true,
        .send true, .newline true] :=
  sent_throughout _ _ (by decide +kernel)

/-! ## A text that does not fit -/

/-- A command, up to `n` bytes that are sent. -/
def command (c : Client) (text : List Byte) (n : Nat) : List (Event Client) :=
  Event.execCmd c text :: List.replicate (atCmdMaxLen - 1) (Event.store c) ++
    [Event.store c, .setLen c, .write c] ++ List.replicate n (Event.send c)

omit [DecidableEq Client] in
theorem lt_vsnprintfResult {text : List Byte} (h : atCmdMaxLen < text.length) :
    atCmdMaxLen < vsnprintfResult text := by
  unfold vsnprintfResult
  split
  · exact h
  · decide

theorem run_store {s : SendBuf Client} {c : Client} {text : List Byte}
    (hphase : s.phase c = .formatting text 0) (h : atCmdMaxLen < text.length) :
    ∃ t, run step s (List.replicate (atCmdMaxLen - 1) (.store c)) = some t ∧
      t.phase c = .formatting text (atCmdMaxLen - 1) := by
  refine exists_run_replicate (J := fun i (t : SendBuf Client) => t.phase c = .formatting text i)
    (fun i hi t ht => ?_) hphase
  have hbyte : (text.take (atCmdMaxLen - 1))[i]? = some text[i] := by
    rw [List.getElem?_take_of_lt hi]
    exact List.getElem?_eq_getElem _
  refine ⟨t.vsnprintf c text i, ?_, ?_⟩
  · unfold step
    dsimp only
    rw [ht]
  · unfold SendBuf.vsnprintf
    rw [hbyte]
    exact SendBuf.goto_phase _ _ _

/-- The buffer is full, and the result of `vsnprintf` is what is to be sent. -/
theorem run_write {s : SendBuf Client} {c : Client} {text : List Byte}
    (hphase : s.phase c = .formatting text (atCmdMaxLen - 1)) :
    ∃ t, run step s [.store c, .setLen c, .write c] = some t ∧
      t.phase c = .sending 0 (vsnprintfResult text) := by
  have hend : (text.take (atCmdMaxLen - 1))[atCmdMaxLen - 1]? = none :=
    List.getElem?_eq_none (List.length_take_le _ _)
  let s₁ := (s.put (atCmdMaxLen - 1) 0).goto c (.formatted (vsnprintfResult text))
  let s₂ := { s₁ with lastCmdLen := vsnprintfResult text }.goto c .stored
  have h₁ : step s (.store c) = some s₁ := by
    unfold step
    dsimp only
    rw [hphase]
    unfold SendBuf.vsnprintf
    dsimp only
    rw [hend]
  have h₂ : step s₁ (.setLen c) = some s₂ := by
    unfold step
    dsimp only
    rw [show s₁.phase c = _ from SendBuf.goto_phase _ _ _]
  have h₃ : step s₂ (.write c) = some (s₂.goto c (.sending 0 (vsnprintfResult text))) :=
    if_pos (SendBuf.goto_phase _ _ _)
  refine ⟨s₂.goto c (.sending 0 (vsnprintfResult text)), ?_, SendBuf.goto_phase _ _ _⟩
  rw [run_cons, h₁, Option.bind_some, run_cons, h₂, Option.bind_some, run_cons, h₃,
    Option.bind_some, run_nil]

theorem run_send {s : SendBuf Client} {c : Client} {n len : Nat}
    (hphase : s.phase c = .sending 0 len) (h : n ≤ len) :
    ∃ t, run step s (List.replicate n (.send c)) = some t ∧ ∀ i < n, i ∈ t.offsets := by
  let J : Nat → SendBuf Client → Prop := fun i t =>
    t.phase c = .sending i len ∧ ∀ j < i, j ∈ t.offsets
  have hsend : ∀ i < n, ∀ t, J i t → ∃ t', step t (.send c) = some t' ∧ J (i + 1) t' := by
    intro i hi t ht
    refine ⟨({ t with offsets := t.offsets ++ [i] }.deliver c [t.sendBuf i]).goto c
      (.sending (i + 1) len), ?_, SendBuf.goto_phase _ _ _, fun j hj => ?_⟩
    · unfold step
      dsimp only
      rw [ht.1]
      exact if_pos (hi.trans_le h)
    · obtain hlt | rfl := Nat.lt_succ_iff_lt_or_eq.mp hj
      · exact List.mem_append_left _ (ht.2 j hlt)
      · exact List.mem_append_right _ List.mem_cons_self
  obtain ⟨t, hrun, -, ht⟩ :=
    exists_run_replicate hsend ⟨hphase, fun j hj => absurd hj (Nat.not_lt_zero j)⟩
  exact ⟨t, hrun, ht⟩

/-- The length of the text, not the one of what has been stored, says how much is sent. -/
theorem sent_behind (memory : Nat → Byte) (c : Client) {text : List Byte}
    (h : atCmdMaxLen < text.length) :
    ∃ s, run step (start memory) (command c text (atCmdMaxLen + 1)) = some s ∧
      atCmdMaxLen ∈ s.offsets := by
  let s₀ := { (start memory : SendBuf Client) with
    commands := Function.update (fun _ => []) c [text] }.goto c (.formatting text 0)
  have h₀ : step (start memory) (.execCmd c text) = some s₀ := by
    unfold step
    exact if_pos rfl
  obtain ⟨s₁, hrun₁, h₁⟩ := run_store (SendBuf.goto_phase _ _ _ : s₀.phase c = _) h
  obtain ⟨s₂, hrun₂, h₂⟩ := run_write h₁
  obtain ⟨s₃, hrun₃, h₃⟩ := run_send h₂ (Nat.succ_le_of_lt (lt_vsnprintfResult h))
  refine ⟨s₃, ?_, h₃ _ (Nat.lt_succ_self _)⟩
  unfold command
  rw [run_append, run_append, run_cons, h₀, Option.bind_some, hrun₁, Option.bind_some, hrun₂,
    Option.bind_some]
  exact hrun₃

/-- A text of 129 bytes. -/
theorem long_text_sent_behind :
    ¬Throughout step Sent (start fun _ => 0)
      (command () (List.replicate 129 0x41) (atCmdMaxLen + 1)) := by
  intro h
  have hlong : atCmdMaxLen < (List.replicate 129 (0x41 : Byte)).length := by
    rw [List.length_replicate]
    decide
  obtain ⟨s, hrun, hmem⟩ := sent_behind (fun _ => 0) () hlong
  exact Nat.lt_irrefl _ ((h.last hrun).inside _ hmem)

end ControlRTT.Net.SendBuffer
