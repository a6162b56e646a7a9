import ControlRTT.Lib.Runs
import ControlRTT.Net.Client

/-! # The hand-over of a response object (at_client.c)

The parser uses the object of the call in progress, and a command has succeeded only if the parser
has completed its response, as long as a call that gives up finds the parser between two lines and
no notice left, and the parser does not look for an object that has been deleted
(`handedOver_along`). -/
namespace ControlRTT.Net.HandOver
open ControlRTT.Lib.CInt ControlRTT.Lib.Runs ControlRTT.Kernel.Thread ControlRTT.Net.Client

variable {Obj : Type}

/-- The call has not supplied its response object yet. -/
def early (c : Call Obj) : Bool :=
  match c.phase with
  | .start => true
  | .supply => true
  | _ => false

/-- The call has deleted its response object, which the client may still have. -/
def deleted (c : Call Obj) : Bool :=
  match c.api, c.phase with
  | .waitConnect, .clear _ => true
  | _, _ => false

/-- Nobody else can have it: the call is about to return. -/
def leaving (c : Call Obj) : Bool :=
  match c.phase with
  | .unlock _ => true
  | _ => false

/-- The call in progress has supplied `o` and has not freed it. -/
def InUse (s : AtClient Obj) (o : Obj) : Prop :=
  ∃ c ∈ s.call, c.resp = some o ∧ early c = false ∧ deleted c = false ∧
    (c.api = .waitConnect → leaving c = false)

/-- What the parser is about to access is in use. -/
def AccessInUse (s : AtClient Obj) : Phase Obj → Prop
  | .use _ resp => ∃ o ∈ resp, InUse s o
  | .copy o i => i < s.parser.recvBuffer.length → InUse s o
  | _ => True

/-- An access of the parser to an object is to one in use, and a command with a response object
that returns `RT_EOK` has had its response completed. -/
def HandedOver (s : AtClient Obj) : Event Obj → Prop
  | .parse => AccessInUse s s.parser.phase
  | .proceed => ∀ c ∈ s.call, c.api = .execCmd → c.phase = .unlock .eok → c.resp ≠ none →
      c.completed = true
  | _ => True

/-- The parser is not at work on a line. -/
def AtRest (p : Phase Obj) : Prop := p = .reading ∨ p = .test ∨ p = .reset

/-- The call has timed out and takes its response object back. -/
def givesUp (c : Call Obj) : Bool :=
  match c.api, c.phase with
  | .execCmd, .clear .etimeout => true
  | .waitConnect, .delete .etimeout => true
  | _, _ => false

/-- A call that gives up finds the parser at rest and no notice, and the parser does not find an
object that is deleted but still in `client->resp`. -/
def Settled (s : AtClient Obj) : Event Obj → Prop
  | .parse => s.parser.phase = .test → ∀ c ∈ s.call, deleted c = true → s.resp = none
  | .proceed => ∀ c ∈ s.call, givesUp c = true → AtRest s.parser.phase ∧ s.respNotice = 0
  | _ => True

section
variable [DecidableEq Obj]

instance (s : AtClient Obj) (o : Obj) : Decidable (InUse s o) :=
  inferInstanceAs (Decidable (∃ c ∈ s.call, _))

instance (s : AtClient Obj) : DecidablePred (AccessInUse s)
  | .use _ resp => inferInstanceAs (Decidable (∃ o ∈ resp, InUse s o))
  | .copy o i => inferInstanceAs (Decidable (i < s.parser.recvBuffer.length → InUse s o))
  | .reading | .test | .load _ | .full | .check | .ended _ | .clear | .release | .reset
  | .fault => isTrue trivial

instance (s : AtClient Obj) : DecidablePred (HandedOver s)
  | .parse => inferInstanceAs (Decidable (AccessInUse s s.parser.phase))
  | .proceed => inferInstanceAs (Decidable (∀ c ∈ s.call, c.api = .execCmd →
      c.phase = .unlock .eok → c.resp ≠ none → c.completed = true))
  | .byte _ | .execCmd _ | .waitConnect _ | .timeout | .setResp _ _ => isTrue trivial

instance (p : Phase Obj) : Decidable (AtRest p) :=
  inferInstanceAs (Decidable (_ ∨ _ ∨ _))

instance (s : AtClient Obj) : DecidablePred (Settled s)
  | .parse => inferInstanceAs (Decidable (s.parser.phase = .test → ∀ c ∈ s.call,
      deleted c = true → s.resp = none))
  | .proceed => inferInstanceAs (Decidable (∀ c ∈ s.call, givesUp c = true →
      AtRest s.parser.phase ∧ s.respNotice = 0))
  | .byte _ | .execCmd _ | .waitConnect _ | .timeout | .setResp _ _ => isTrue trivial

end

/-! ## The invariant -/

/-- The parser works on the object `o`, or is at rest. -/
def Working (o : Obj) : Phase Obj → Prop
  | .use _ resp => resp = some o
  | .copy o' _ => o' = o
  | .clear => False
  | .release => False
  | .fault => False
  | _ => True

structure Quiet (s : AtClient Obj) : Prop where
  resp : s.resp = none
  notice : s.respNotice = 0
  rest : AtRest s.parser.phase

/-- How far the parser has come with the object `o`, and whether it has completed it. -/
inductive Stage (s : AtClient Obj) (o : Obj) : Bool → Prop where
  | opened (resp : s.resp = some o) (notice : s.respNotice = 0)
      (work : Working o s.parser.phase) : Stage s o false
  | stored (resp : s.resp = some o) (notice : s.respNotice = 0)
      (phase : s.parser.phase = .clear) : Stage s o true
  | cleared (resp : s.resp = none) (notice : s.respNotice = 0)
      (phase : s.parser.phase = .release) : Stage s o true
  | noticed (resp : s.resp = none) (notice : s.respNotice = 1)
      (rest : AtRest s.parser.phase) : Stage s o true

inductive Kind where
  | before
  | waiting
  | deleted
  | finished
  deriving DecidableEq

/-- What a call is doing: it has not supplied its object yet, it waits for the response or is
about to give up, it has deleted the object that the client may still have, or it is done with
it. -/
def kind (c : Call Obj) : Kind :=
  match c.phase, c.api, c.resp with
  | .start, _, _ => .before
  | .supply, _, _ => .before
  | .write, .execCmd, none => .finished
  | .check, _, _ => .finished
  | .delete .etimeout, _, _ => .waiting
  | .delete _, _, _ => .finished
  | .clear .etimeout, .execCmd, _ => .waiting
  | .clear _, .execCmd, _ => .finished
  | .clear _, .waitConnect, _ => .deleted
  | .unlock _, _, _ => .finished
  | _, _, _ => .waiting

/-- A command that has not timed out has had its response completed. -/
def Answered (c : Call Obj) : Prop :=
  c.api = .execCmd → c.resp ≠ none → c.completed = true ∨ c.phase = .unlock .etimeout

theorem deleted_of_kind {c : Call Obj} (h : kind c = .deleted) : deleted c = true := by
  obtain ⟨api, resp, phase, completed, received⟩ := c
  unfold kind at h
  dsimp only at h
  split at h <;> cases h
  rfl

def CallInv (s : AtClient Obj) (c : Call Obj) : Prop :=
  match kind c with
  | .before => Quiet s ∧ c.completed = false ∧ (c.api = .waitConnect → c.resp ≠ none)
  | .waiting => ∃ o, c.resp = some o ∧ Stage s o c.completed
  | .deleted => s.respNotice = 0 ∧ AtRest s.parser.phase
  | .finished => Quiet s ∧ Answered c

def Inv (s : AtClient Obj) : Prop :=
  match s.call with
  | none => Quiet s
  | some c => CallInv s c

section
variable {s s' : AtClient Obj} {o : Obj}

theorem AtRest.working {p : Phase Obj} (h : AtRest p) (o : Obj) : Working o p := by
  rcases h with h | h | h <;> rw [h] <;> trivial

theorem Quiet.congr (h : Quiet s) (hresp : s'.resp = s.resp)
    (hnotice : s'.respNotice = s.respNotice) (hrest : AtRest s'.parser.phase) : Quiet s' :=
  ⟨hresp.trans h.resp, hnotice.trans h.notice, hrest⟩

/-- What a call does without an answer: nothing of what its parser sees is different. -/
theorem Stage.congr {b : Bool} (h : Stage s o b) (hresp : s'.resp = s.resp)
    (hnotice : s'.respNotice = s.respNotice) (hparser : s'.parser = s.parser) : Stage s' o b := by
  have hphase : s'.parser.phase = s.parser.phase := congrArg AtParser.phase hparser
  cases h with
  | opened resp notice work =>
    exact .opened (hresp.trans resp) (hnotice.trans notice) (hphase ▸ work)
  | stored resp notice phase =>
    exact .stored (hresp.trans resp) (hnotice.trans notice) (hphase.trans phase)
  | cleared resp notice phase =>
    exact .cleared (hresp.trans resp) (hnotice.trans notice) (hphase.trans phase)
  | noticed resp notice rest =>
    exact .noticed (hresp.trans resp) (hnotice.trans notice) (hphase ▸ rest)

theorem Stage.take {b : Bool} (h : Stage s o b) (hnotice : s.respNotice ≠ 0) :
    b = true ∧ s.resp = none ∧ s.respNotice = 1 ∧ AtRest s.parser.phase := by
  cases h with
  | opened resp notice => exact absurd notice hnotice
  | stored resp notice => exact absurd notice hnotice
  | cleared resp notice => exact absurd notice hnotice
  | noticed resp notice rest => exact ⟨rfl, resp, notice, rest⟩

/-- A parser that is at rest and stays so. -/
theorem Stage.atRest {b : Bool} (h : Stage s o b) (hrest : AtRest s.parser.phase)
    (hresp : s'.resp = s.resp) (hnotice : s'.respNotice = s.respNotice)
    (hrest' : AtRest s'.parser.phase) : Stage s' o b := by
  cases h with
  | opened resp notice => exact .opened (hresp.trans resp) (hnotice.trans notice) (hrest'.working o)
  | stored resp notice phase =>
    rw [phase] at hrest
    rcases hrest with h | h | h <;> cases h
  | cleared resp notice phase =>
    rw [phase] at hrest
    rcases hrest with h | h | h <;> cases h
  | noticed resp notice => exact .noticed (hresp.trans resp) (hnotice.trans notice) hrest'

theorem Inv.atRest {received : Call Obj → List (List Byte)} (h : Inv s)
    (hrest : AtRest s.parser.phase) (hresp : s'.resp = s.resp)
    (hnotice : s'.respNotice = s.respNotice) (hrest' : AtRest s'.parser.phase)
    (hcall : s'.call = s.call.map fun c => { c with received := received c }) : Inv s' := by
  unfold Inv at h ⊢
  rw [hcall]
  cases hc : s.call with
  | none =>
    rw [hc] at h
    exact Quiet.congr h hresp hnotice hrest'
  | some c =>
    rw [hc] at h
    have hkind : kind { c with received := received c } = kind c := rfl
    dsimp only [Option.map_some, CallInv] at h ⊢
    rw [hkind]
    cases hk : kind c with
    | before =>
      rw [hk] at h
      exact ⟨h.1.congr hresp hnotice hrest', h.2⟩
    | waiting =>
      rw [hk] at h
      obtain ⟨o, ho, hstage⟩ := h
      exact ⟨o, ho, hstage.atRest hrest hresp hnotice hrest'⟩
    | deleted =>
      rw [hk] at h
      exact ⟨hnotice.trans h.1, hrest'⟩
    | finished =>
      rw [hk] at h
      exact ⟨h.1.congr hresp hnotice hrest', h.2⟩

theorem Inv.noCall (h : Inv s) (hcall : s.call = none) : Quiet s := by
  unfold Inv at h
  rw [hcall] at h
  exact h

theorem Inv.ofCall {c : Call Obj} (h : Inv s) (hcall : s.call = some c) : CallInv s c := by
  unfold Inv at h
  rw [hcall] at h
  exact h

/-- Nobody uses the client, or the client may have a deleted object, or a call waits. -/
theorem Inv.cases (h : Inv s) : Quiet s ∨
    (∃ c, s.call = some c ∧ kind c = .deleted ∧ AtRest s.parser.phase) ∨
      ∃ c o, s.call = some c ∧ kind c = .waiting ∧ c.resp = some o ∧ Stage s o c.completed := by
  cases hcall : s.call with
  | none => exact .inl (h.noCall hcall)
  | some c =>
    have hinv := h.ofCall hcall
    unfold CallInv at hinv
    cases hk : kind c with
    | before =>
      rw [hk] at hinv
      exact .inl hinv.1
    | waiting =>
      rw [hk] at hinv
      obtain ⟨o, ho, hstage⟩ := hinv
      exact .inr (.inr ⟨c, o, rfl, hk, ho, hstage⟩)
    | deleted =>
      rw [hk] at hinv
      exact .inr (.inl ⟨c, rfl, hk, hinv.2⟩)
    | finished =>
      rw [hk] at hinv
      exact .inl hinv.1

/-- A parser at work is at work on the object of a call that waits. -/
theorem Inv.waiting (h : Inv s) (hwork : ¬AtRest s.parser.phase) :
    ∃ c o, s.call = some c ∧ kind c = .waiting ∧ c.resp = some o ∧ Stage s o c.completed := by
  obtain hquiet | ⟨c, -, -, hrest⟩ | hwaiting := h.cases
  · exact absurd hquiet.rest hwork
  · exact absurd hrest hwork
  · exact hwaiting

theorem Inv.of_stage {c : Call Obj} (hcall : s.call = some c) (hkind : kind c = .waiting)
    (ho : c.resp = some o) (h : Stage s o c.completed) : Inv s := by
  unfold Inv CallInv
  rw [hcall]
  dsimp only
  rw [hkind]
  exact ⟨o, ho, h⟩

theorem inUse_of_waiting {c : Call Obj} (hcall : s.call = some c) (hkind : kind c = .waiting)
    (ho : c.resp = some o) : InUse s o := by
  refine ⟨c, hcall, ho, ?_⟩
  obtain ⟨api, resp, phase, completed, received⟩ := c
  cases phase with
  | start => cases hkind
  | supply => cases hkind
  | unlock r => cases hkind
  | clear r =>
    cases api with
    | execCmd => exact ⟨rfl, rfl, nofun⟩
    | waitConnect => cases r <;> cases hkind
  | loop | zero | write | take | check | timedOut | delete r =>
    exact ⟨rfl, by cases api <;> rfl, fun _ => rfl⟩

/-- An object that the parser is at work on. -/
theorem Inv.inUse (h : Inv s) (hwork : ¬AtRest s.parser.phase)
    (hphase : s.parser.phase ≠ .clear ∧ s.parser.phase ≠ .release) :
    ∃ o, InUse s o ∧ Working o s.parser.phase := by
  obtain ⟨c, o, hcall, hkind, ho, hstage⟩ := h.waiting hwork
  have hin := inUse_of_waiting hcall hkind ho
  generalize hb : c.completed = b at hstage
  cases hstage with
  | opened resp notice work => exact ⟨o, hin, work⟩
  | stored resp notice phase => exact absurd phase hphase.1
  | cleared resp notice phase => exact absurd phase hphase.2
  | noticed resp notice rest => exact absurd rest hwork

theorem Inv.handedOver (h : Inv s) (e : Event Obj) : HandedOver s e := by
  cases e with
  | parse =>
    change AccessInUse s s.parser.phase
    unfold AccessInUse
    split
    · rename_i u resp hphase
      obtain ⟨o, hin, hwork⟩ := h.inUse (by rw [hphase]; rintro (h | h | h) <;> cases h)
        (by rw [hphase]; exact ⟨nofun, nofun⟩)
      rw [hphase] at hwork
      exact ⟨o, hwork, hin⟩
    · rename_i o' i hphase
      obtain ⟨o, hin, hwork⟩ := h.inUse (by rw [hphase]; rintro (h | h | h) <;> cases h)
        (by rw [hphase]; exact ⟨nofun, nofun⟩)
      rw [hphase] at hwork
      obtain rfl : o' = o := hwork
      exact fun _ => hin
    · trivial
  | proceed =>
    intro c hcall hapi hphase hne
    have hinv := h.ofCall hcall
    obtain ⟨api, resp, phase, completed, received⟩ := c
    obtain rfl : phase = .unlock .eok := hphase
    exact (hinv.2 hapi hne).resolve_right nofun
  | byte ch => trivial
  | execCmd resp => trivial
  | waitConnect resp => trivial
  | timeout => trivial
  | setResp o r => trivial

theorem exit_cases {c : Call Obj} (h : exit s c = some s') :
    (∃ r, c.phase = .clear r ∧ s' = { s with resp := none }.callTo c (.unlock r)) ∨
      (∃ r, c.phase = .unlock r) ∧ s' = { s with call := none } := by
  unfold exit at h
  split at h
  · rename_i r hphase
    exact .inl ⟨r, hphase, (Option.some.inj h).symm⟩
  · rename_i r hphase
    exact .inr ⟨⟨r, hphase⟩, (Option.some.inj h).symm⟩
  · cases h

theorem Inv.timeOut {c : Call Obj} (h : CallInv s c) (hstep : timeOut s c = some s') : Inv s' := by
  obtain ⟨api, resp, phase, completed, received⟩ := c
  unfold Client.timeOut at hstep
  dsimp only at hstep
  split at hstep
  · obtain ⟨-, heq⟩ := Option.ite_none_right_eq_some.mp hstep
    obtain rfl := Option.some.inj heq
    obtain ⟨o, ho, hstage⟩ := h
    exact ⟨o, ho, hstage.congr rfl rfl rfl⟩
  · obtain ⟨-, heq⟩ := Option.ite_none_right_eq_some.mp hstep
    obtain rfl := Option.some.inj heq
    obtain ⟨o, ho, hstage⟩ := h
    exact ⟨o, ho, hstage.congr rfl rfl rfl⟩
  · obtain rfl := Option.some.inj hstep
    obtain ⟨o, ho, hstage⟩ := h
    exact ⟨o, ho, hstage.congr rfl rfl rfl⟩
  · cases hstep

/-! ## The parser -/

theorem noteLine_call (s : AtClient Obj) (line : List Byte) :
    ∃ received : Call Obj → List (List Byte),
      (s.noteLine line).call = s.call.map fun c => { c with received := received c } := by
  unfold AtClient.noteLine
  split
  · exact ⟨Call.received, Option.map_id'.symm⟩
  · exact ⟨_, rfl⟩

@[simp] theorem noteLine_resp (s : AtClient Obj) (line : List Byte) :
    (s.noteLine line).resp = s.resp := by
  unfold AtClient.noteLine
  split <;> rfl

@[simp] theorem noteLine_respNotice (s : AtClient Obj) (line : List Byte) :
    (s.noteLine line).respNotice = s.respNotice := by
  unfold AtClient.noteLine
  split <;> rfl

theorem Inv.byte (h : Inv s) (hreading : s.parser.phase = .reading) (cfg : AtConfig) (ch : Byte) :
    Inv (atRecvReadline cfg s ch) := by
  have hrest : AtRest s.parser.phase := .inl hreading
  have hphase : (s.parser.store cfg ch).phase = .reading := by
    unfold AtParser.store
    dsimp only
    split <;> exact hreading
  unfold atRecvReadline
  dsimp only
  split
  · split
    · obtain ⟨received, hcall⟩ := noteLine_call s (s.parser.store cfg ch).raw
      exact h.atRest hrest (noteLine_resp _ _) (noteLine_respNotice _ _) (.inl rfl) hcall
    · split
      · exact h.atRest hrest rfl rfl (.inr (.inl rfl)) Option.map_id'.symm
      · obtain ⟨received, hcall⟩ := noteLine_call s (s.parser.store cfg ch).raw
        exact h.atRest hrest (noteLine_resp _ _) (noteLine_respNotice _ _) (.inr (.inl rfl)) hcall
  · exact h.atRest hrest rfl rfl (.inl hphase) Option.map_id'.symm

variable [DecidableEq Obj]

/-- What the parser does with an object it is given: it goes on with it, or it completes it. -/
theorem useResp_cases (s : AtClient Obj) (o : Obj) (u : Use) :
    (useResp s o u).resp = s.resp ∧ (useResp s o u).respNotice = s.respNotice ∧
      ((useResp s o u).call = s.call ∧ Working o (useResp s o u).parser.phase ∨
        (useResp s o u).call = (s.noteCompleted o).call ∧
          (useResp s o u).parser.phase = .clear) := by
  have hrest : Working o s.parser.checkRest.phase := by
    unfold AtParser.checkRest AtParser.setPhase
    dsimp only
    split <;> trivial
  cases u with
  | bufSize =>
    unfold useResp
    dsimp only
    split <;> exact ⟨rfl, rfl, .inl ⟨rfl, trivial⟩⟩
  | buf => exact ⟨rfl, rfl, .inl ⟨rfl, rfl⟩⟩
  | logSize => exact ⟨rfl, rfl, .inl ⟨rfl, trivial⟩⟩
  | okLineNum =>
    unfold useResp
    dsimp only
    split
    · exact ⟨rfl, rfl, .inl ⟨rfl, trivial⟩⟩
    · exact ⟨rfl, rfl, .inl ⟨rfl, hrest⟩⟩
  | lineNum =>
    unfold useResp
    dsimp only
    split <;> exact ⟨rfl, rfl, .inl ⟨rfl, trivial⟩⟩
  | lineNumAgain =>
    unfold useResp
    dsimp only
    split <;> exact ⟨rfl, rfl, .inl ⟨rfl, trivial⟩⟩
  | lineCounts => exact ⟨rfl, rfl, .inr ⟨rfl, rfl⟩⟩

/-- The parser works on the object `o`, which it finds in the client. -/
theorem clientParser_opened {cfg : AtConfig} (hresp : s.resp = some o)
    (hwork : Working o s.parser.phase) (hstep : clientParser cfg s = some s') :
    s'.resp = s.resp ∧ s'.respNotice = s.respNotice ∧
      (s'.call = s.call ∧ Working o s'.parser.phase ∨
        s'.call = (s.noteCompleted o).call ∧ s'.parser.phase = .clear) := by
  unfold clientParser at hstep
  cases hphase : s.parser.phase with
  | reading => rw [hphase] at hstep; cases hstep
  | test =>
    rw [hphase] at hstep
    dsimp only at hstep
    split at hstep <;> obtain rfl := Option.some.inj hstep <;>
      exact ⟨rfl, rfl, .inl ⟨rfl, trivial⟩⟩
  | load u =>
    rw [hphase] at hstep
    obtain rfl := Option.some.inj hstep
    exact ⟨rfl, rfl, .inl ⟨rfl, hresp⟩⟩
  | use u resp =>
    rw [hphase] at hstep hwork
    obtain rfl : resp = some o := hwork
    obtain rfl := Option.some.inj hstep
    exact useResp_cases s o u
  | copy o' i =>
    rw [hphase] at hstep hwork
    obtain rfl : o' = o := hwork
    dsimp only at hstep
    split at hstep <;> obtain rfl := Option.some.inj hstep
    · exact ⟨rfl, rfl, .inl ⟨rfl, rfl⟩⟩
    · exact ⟨rfl, rfl, .inl ⟨rfl, trivial⟩⟩
  | full =>
    rw [hphase] at hstep
    obtain rfl := Option.some.inj hstep
    exact ⟨rfl, rfl, .inl ⟨rfl, trivial⟩⟩
  | check =>
    rw [hphase] at hstep
    dsimp only at hstep
    split at hstep <;> obtain rfl := Option.some.inj hstep
    · exact ⟨rfl, rfl, .inl ⟨rfl, trivial⟩⟩
    · refine ⟨rfl, rfl, .inl ⟨rfl, ?_⟩⟩
      unfold AtParser.checkRest AtClient.setParser AtParser.setPhase
      dsimp only
      split <;> trivial
  | ended status =>
    rw [hphase] at hstep
    obtain rfl := Option.some.inj hstep
    exact ⟨rfl, rfl, .inl ⟨rfl, trivial⟩⟩
  | clear => rw [hphase] at hwork; exact hwork.elim
  | release => rw [hphase] at hwork; exact hwork.elim
  | reset =>
    rw [hphase] at hstep
    obtain rfl := Option.some.inj hstep
    exact ⟨rfl, rfl, .inl ⟨rfl, trivial⟩⟩
  | fault => rw [hphase] at hwork; exact hwork.elim

/-- A parser at rest that finds no object stays at rest. -/
theorem clientParser_atRest {cfg : AtConfig} (hrest : AtRest s.parser.phase)
    (hnone : s.parser.phase = .test → s.resp = none) (hstep : clientParser cfg s = some s') :
    s'.resp = s.resp ∧ s'.respNotice = s.respNotice ∧ s'.call = s.call ∧
      AtRest s'.parser.phase := by
  unfold clientParser at hstep
  obtain hphase | hphase | hphase := hrest
  · rw [hphase] at hstep
    cases hstep
  · rw [hphase] at hstep
    dsimp only at hstep
    rw [if_pos (.inr (hnone hphase))] at hstep
    obtain rfl := Option.some.inj hstep
    exact ⟨rfl, rfl, rfl, .inl rfl⟩
  · rw [hphase] at hstep
    obtain rfl := Option.some.inj hstep
    exact ⟨rfl, rfl, rfl, .inl rfl⟩

theorem Inv.parse_waiting {cfg : AtConfig} {c : Call Obj} (hcall : s.call = some c)
    (hkind : kind c = .waiting) (ho : c.resp = some o) (h : Stage s o c.completed)
    (hstep : clientParser cfg s = some s') : Inv s' := by
  generalize hb : c.completed = b at h
  cases h with
  | opened resp notice work =>
    obtain ⟨hresp, hnotice, ⟨hcall', hwork⟩ | ⟨hcall', hphase⟩⟩ :=
      clientParser_opened resp work hstep
    · refine .of_stage (hcall'.trans hcall) hkind ho ?_
      rw [hb]
      exact .opened (hresp.trans resp) (hnotice.trans notice) hwork
    · have hdone : s'.call = some { c with completed := true } := by
        rw [hcall']
        unfold AtClient.noteCompleted
        dsimp only
        rw [hcall, Option.map_some, if_pos ho]
      exact .of_stage hdone hkind ho (.stored (hresp.trans resp) (hnotice.trans notice) hphase)
  | stored resp notice phase =>
    unfold clientParser at hstep
    rw [phase] at hstep
    obtain rfl := Option.some.inj hstep
    refine .of_stage (c := c) hcall hkind ho ?_
    rw [hb]
    exact .cleared rfl notice rfl
  | cleared resp notice phase =>
    unfold clientParser at hstep
    rw [phase] at hstep
    obtain rfl := Option.some.inj hstep
    refine .of_stage (c := c) hcall hkind ho ?_
    rw [hb]
    exact .noticed resp (congrArg (· + 1) notice) (.inr (.inr rfl))
  | noticed resp notice rest =>
    obtain ⟨hresp, hnotice, hcall', hrest⟩ := clientParser_atRest rest (fun _ => resp) hstep
    refine .of_stage (hcall'.trans hcall) hkind ho ?_
    rw [hb]
    exact .noticed (hresp.trans resp) (hnotice.trans notice) hrest

theorem Inv.parse {cfg : AtConfig} (h : Inv s) (hsettled : Settled s .parse)
    (hstep : clientParser cfg s = some s') : Inv s' := by
  by_cases hrest : AtRest s.parser.phase
  · by_cases hnone : s.parser.phase = .test → s.resp = none
    · obtain ⟨hresp, hnotice, hcall, hrest'⟩ := clientParser_atRest hrest hnone hstep
      exact h.atRest hrest hresp hnotice hrest' (hcall.trans Option.map_id'.symm)
    · -- a line comes, and the client has an object: that of a call that waits
      obtain ⟨htest, hsome⟩ := Classical.not_imp.mp hnone
      obtain hquiet | ⟨c, hc, hk, -⟩ | ⟨c, o, hc, hk, ho, hstage⟩ := h.cases
      · exact absurd hquiet.resp hsome
      · exact absurd (hsettled htest c hc (deleted_of_kind hk)) hsome
      · exact Inv.parse_waiting hc hk ho hstage hstep
  · obtain ⟨c, o, hc, hk, ho, hstage⟩ := h.waiting hrest
    exact Inv.parse_waiting hc hk ho hstage hstep

/-! ## The calls -/

theorem Inv.execCmd {c : Call Obj} (h : CallInv s c) (hcall : s.call = some c)
    (hapi : c.api = .execCmd) (hsettled : Settled s .proceed)
    (hstep : atObjExecCmd s c = some s') : Inv s' := by
  obtain ⟨api, resp, phase, completed, received⟩ := c
  obtain rfl : api = .execCmd := hapi
  unfold atObjExecCmd at hstep
  dsimp only at hstep
  split at hstep
  · obtain rfl := Option.some.inj hstep
    exact ⟨⟨h.1.resp, h.1.notice, h.1.rest⟩, h.2⟩
  · obtain rfl := Option.some.inj hstep
    obtain ⟨hquiet, hfresh, -⟩ := h
    obtain rfl : completed = false := hfresh
    cases resp with
    | none => exact ⟨⟨rfl, hquiet.notice, hquiet.rest⟩, fun _ hne => absurd rfl hne⟩
    | some o => exact ⟨o, rfl, .opened rfl hquiet.notice (hquiet.rest.working o)⟩
  · obtain rfl := Option.some.inj hstep
    exact ⟨⟨h.1.resp, h.1.notice, h.1.rest⟩, fun _ hne => absurd rfl hne⟩
  · obtain rfl := Option.some.inj hstep
    obtain ⟨o, ho, hstage⟩ := h
    exact ⟨o, ho, hstage.congr rfl rfl rfl⟩
  · obtain rfl := Option.some.inj hstep
    obtain ⟨o, ho, hstage⟩ := h
    exact ⟨o, ho, hstage.congr rfl rfl rfl⟩
  · split at hstep
    · cases hstep
    · rename_i hnotice
      obtain rfl := Option.some.inj hstep
      obtain ⟨o, ho, hstage⟩ := h
      obtain ⟨hdone, hresp, hone, hrest⟩ := hstage.take hnotice
      exact ⟨⟨hresp, congrArg (· - 1) hone, hrest⟩, fun _ _ => .inl hdone⟩
  · obtain rfl := Option.some.inj hstep
    obtain ⟨hquiet, hanswered⟩ := h
    have hdone : completed = true := (hanswered rfl nofun).resolve_right nofun
    by_cases hok : s.respStatus = .ok
    · rw [if_pos hok]
      exact ⟨⟨hquiet.resp, hquiet.notice, hquiet.rest⟩, fun _ _ => .inl hdone⟩
    · rw [if_neg hok]
      exact ⟨⟨hquiet.resp, hquiet.notice, hquiet.rest⟩, fun _ _ => .inl hdone⟩
  · obtain rfl := Option.some.inj hstep
    obtain ⟨o, ho, hstage⟩ := h
    exact ⟨o, ho, hstage.congr rfl rfl rfl⟩
  · obtain ⟨r, hphase, rfl⟩ | ⟨⟨r, hphase⟩, rfl⟩ := exit_cases hstep
    · obtain rfl : phase = .clear r := hphase
      cases r with
      | etimeout =>
        obtain ⟨hrest, hnotice⟩ := hsettled _ hcall rfl
        exact ⟨⟨rfl, hnotice, hrest⟩, fun _ _ => .inr rfl⟩
      | eok =>
        obtain ⟨hquiet, hanswered⟩ := h
        exact ⟨⟨rfl, hquiet.notice, hquiet.rest⟩, fun ha hne =>
          .inl ((hanswered ha hne).resolve_right nofun)⟩
      | error =>
        obtain ⟨hquiet, hanswered⟩ := h
        exact ⟨⟨rfl, hquiet.notice, hquiet.rest⟩, fun ha hne =>
          .inl ((hanswered ha hne).resolve_right nofun)⟩
    · obtain rfl : phase = .unlock r := hphase
      exact ⟨h.1.resp, h.1.notice, h.1.rest⟩

theorem Inv.waitConnect {c : Call Obj} (h : CallInv s c) (hcall : s.call = some c)
    (hapi : c.api = .waitConnect) (hsettled : Settled s .proceed)
    (hstep : atClientObjWaitConnect s c = some s') : Inv s' := by
  obtain ⟨api, resp, phase, completed, received⟩ := c
  obtain rfl : api = .waitConnect := hapi
  unfold atClientObjWaitConnect at hstep
  dsimp only at hstep
  split at hstep
  · obtain rfl := Option.some.inj hstep
    obtain ⟨hquiet, hfresh, hsome⟩ := h
    obtain rfl : completed = false := hfresh
    obtain ⟨o, rfl⟩ := Option.ne_none_iff_exists'.mp (hsome rfl)
    exact ⟨o, rfl, .opened rfl hquiet.notice (hquiet.rest.working o)⟩
  · obtain rfl := Option.some.inj hstep
    obtain ⟨o, ho, hstage⟩ := h
    exact ⟨o, ho, hstage.congr rfl rfl rfl⟩
  · obtain rfl := Option.some.inj hstep
    obtain ⟨o, ho, hstage⟩ := h
    exact ⟨o, ho, hstage.congr rfl rfl rfl⟩
  · obtain rfl := Option.some.inj hstep
    obtain ⟨o, ho, hstage⟩ := h
    exact ⟨o, ho, hstage.congr rfl rfl rfl⟩
  · split at hstep
    · cases hstep
    · rename_i hnotice
      obtain rfl := Option.some.inj hstep
      obtain ⟨o, ho, hstage⟩ := h
      obtain ⟨-, hresp, hone, hrest⟩ := hstage.take hnotice
      exact ⟨⟨hresp, congrArg (· - 1) hone, hrest⟩, nofun⟩
  · rename_i result _
    obtain rfl := Option.some.inj hstep
    cases result with
    | etimeout =>
      obtain ⟨hrest, hnotice⟩ := hsettled _ hcall rfl
      exact ⟨hnotice, hrest⟩
    | eok => exact ⟨h.1.notice, h.1.rest⟩
    | error => exact ⟨h.1.notice, h.1.rest⟩
  · obtain ⟨r, hphase, rfl⟩ | ⟨⟨r, hphase⟩, rfl⟩ := exit_cases hstep
    · obtain rfl : phase = .clear r := hphase
      cases r <;> exact ⟨⟨rfl, h.1, h.2⟩, nofun⟩
    · obtain rfl : phase = .unlock r := hphase
      exact ⟨h.1.resp, h.1.notice, h.1.rest⟩

theorem Inv.setObj (h : Inv s) (o : Obj) (r : AtResponse) : Inv (s.setObj o r) := by
  by_cases hrest : AtRest s.parser.phase
  · exact h.atRest hrest rfl rfl hrest Option.map_id'.symm
  · obtain ⟨c, o', hcall, hkind, ho, hstage⟩ := h.waiting hrest
    exact .of_stage hcall hkind ho (hstage.congr rfl rfl rfl)

theorem Inv.step {cfg : AtConfig} {e : Event Obj} (h : Inv s) (hsettled : Settled s e)
    (hstep : step cfg s e = some s') : Inv s' := by
  cases e with
  | byte ch =>
    obtain ⟨hreading, heq⟩ := Option.ite_none_right_eq_some.mp hstep
    obtain rfl := Option.some.inj heq
    exact h.byte hreading cfg ch
  | parse => exact h.parse hsettled hstep
  | execCmd resp =>
    obtain ⟨hnone, heq⟩ := Option.ite_none_right_eq_some.mp hstep
    obtain rfl := Option.some.inj heq
    have hquiet := h.noCall hnone
    exact ⟨⟨hquiet.resp, hquiet.notice, hquiet.rest⟩, rfl, nofun⟩
  | waitConnect resp =>
    obtain ⟨hnone, heq⟩ := Option.ite_none_right_eq_some.mp hstep
    obtain rfl := Option.some.inj heq
    have hquiet := h.noCall hnone
    exact ⟨⟨hquiet.resp, hquiet.notice, hquiet.rest⟩, rfl, fun _ => nofun⟩
  | proceed =>
    obtain ⟨c, hcall, hproceed⟩ := Option.bind_eq_some_iff.mp hstep
    unfold proceed at hproceed
    cases hapi : c.api with
    | execCmd =>
      rw [hapi] at hproceed
      exact Inv.execCmd (h.ofCall hcall) hcall hapi hsettled hproceed
    | waitConnect =>
      rw [hapi] at hproceed
      exact Inv.waitConnect (h.ofCall hcall) hcall hapi hsettled hproceed
  | timeout =>
    obtain ⟨c, hcall, htime⟩ := Option.bind_eq_some_iff.mp hstep
    exact Inv.timeOut (h.ofCall hcall) htime
  | setResp o r =>
    obtain ⟨-, heq⟩ := Option.ite_none_right_eq_some.mp hstep
    obtain rfl := Option.some.inj heq
    exact h.setObj o r

end

theorem inv_start (objs : Obj → AtResponse) : Inv (start objs) := ⟨rfl, rfl, .inl rfl⟩

variable [DecidableEq Obj]

/-- Whoever calls, whatever comes, and whenever a wait is over. -/
theorem handedOver_along (cfg : AtConfig) (objs : Obj → AtResponse) (es : List (Event Obj))
    (h : Along (step cfg) Settled (start objs) es) :
    Along (step cfg) HandedOver (start objs) es :=
  along_of_along (fun _ _ _ h hsettled hstep => h.step hsettled hstep)
    (fun _ e h _ => h.handedOver e) (inv_start objs) h

/-- A command times out while the parser waits for a line, and the next one gets the line `>`,
which is its end sign. -/
theorem handedOver_along_timeout :
    Along (step ⟨16, 0x3E, []⟩) HandedOver (start fun _ : Unit => atCreateResp 8 1)
      (List.flatten [[.execCmd (some ()), .proceed, .proceed, .proceed, .proceed, .timeout,
          .proceed, .proceed, .proceed, .execCmd (some ()), .proceed, .proceed, .proceed, .proceed,
          .byte 0x3E], List.replicate 17 .parse,
        [.proceed, .proceed, .proceed, .proceed]]) :=
  handedOver_along _ _ _ (by decide +kernel)

/-- The command times out and returns while the parser is about to look for room for a line. -/
theorem response_used_late :
    ¬Along (step ⟨16, 0x3E, []⟩) HandedOver (start fun _ : Unit => atCreateResp 8 1)
      [.execCmd (some ()), .proceed, .proceed, .proceed, .proceed, .byte 0x3E, .parse, .parse,
        .timeout, .proceed, .proceed, .proceed, .parse] := by
  decide +kernel

end ControlRTT.Net.HandOver
