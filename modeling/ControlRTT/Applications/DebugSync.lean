import ControlRTT.Applications.DebugPort

/-! # Command frames after noise

The debug port looks for the device id only where its index is 0, and the index comes back to 0
after a command, after a word it knows, and at the end of the buffer, wherever in a frame that is.
The buffer is not a whole number of frames long. Frames that follow some noise come to be
recognised exactly if none of them ever sees the index go back to 0 inside it
(`resyncs_iff`). -/
namespace ControlRTT.Applications.DebugSync
open ControlRTT.Lib ControlRTT.Lib.CInt ControlRTT.Lib.Runs ControlRTT.Applications.Config
open ControlRTT.Applications.DebugPort

/-- The eight bytes of a command, which spell neither of the words the port knows. -/
structure Frame where
  bytes : CmdBuff
  head : bytes.toList.head? = some revDeviceId
  noBegin : ¬ beginText <:+: bytes.toList
  noCcid : ¬ ccidText <:+: bytes.toList

/-- The calls of `getCmdData` among what a call has done. -/
def commands (out : List Output) : List CmdBuff :=
  out.filterMap fun
    | .getCmdData buff => some buff
    | _ => none

/-- The port after some bytes, and the commands it has passed on. -/
def feed (p : Port) : List Byte → Option (Port × List CmdBuff)
  | [] => some (p, [])
  | ch :: rest => (p.debugAnsy ch).bind fun called =>
    (feed called.1 rest).map fun fed => (fed.1, commands called.2 ++ fed.2)

/-- The frame's bytes make one call of `getCmdData`, with the frame's own eight bytes. -/
def Delivered (p : Port) (f : Frame) : Prop :=
  ∃ q, feed p f.bytes.toList = some (q, [f.bytes])

def stream (fs : List Frame) : List Byte := fs.flatMap fun f => f.bytes.toList

/-- There is a number such that in all frames that follow the noise, every frame from that number
on is delivered. -/
def Resyncs (g : StuFlashData) (noise : List Byte) : Prop :=
  ∃ n, ∀ fs : List Frame, ∀ i (h : i < fs.length), n ≤ i →
    ∃ p, run step (powerOn g) (noise ++ stream (fs.take i)) = some p ∧ Delivered p fs[i]

/-- The call accesses no buffer outside of it. -/
def Defined (p : Port) (ch : Byte) : Prop :=
  Completes p ∨ (ch = 0 ∨ ∃ i, i ≠ p.sIndex ∧ p.sRevBuff.toList[i]? = some 0) ∧
    (Recognised (p.textWith ch) ch → 1 ≤ (Port.sscanfCcid (p.textWith ch)).length ∧
      (Port.sscanfCcid (p.textWith ch)).length < 20)

/-- The text with the byte is one the port knows. -/
def Known (p : Port) (ch : Byte) : Prop :=
  beginText <:+: p.textWith ch ∨ Recognised (p.textWith ch) ch

/-- The byte sends the index back to 0: it is the last one of a command, it comes to the last place
of the buffer, or it completes a text that the port knows. -/
def Resets (p : Port) (ch : Byte) : Prop := Completes p ∨ p.sIndex = 99 ∨ Known p ch

/-- The bytes up to the end of a frame: all calls are defined, and none but the last one sends the
index back to 0. -/
def InStep (p : Port) : List Byte → Prop
  | [] => True
  | ch :: rest => Defined p ch ∧ (rest ≠ [] → ¬ Resets p ch) ∧
    ∀ q, step p ch = some q → InStep q rest

def AllInStep (p : Port) : List Frame → Prop
  | [] => True
  | f :: fs => InStep p f.bytes.toList ∧
    ∀ q, run step p f.bytes.toList = some q → AllInStep q fs

/-! ## A call -/

theorem commands_effects (es : List Effect) : commands (es.map .effect) = [] := by
  unfold commands
  rw [List.filterMap_map]
  exact List.filterMap_eq_nil_iff.mpr fun _ _ => rfl

/-- The last byte of a command. -/
theorem debugAnsy_of_completes {p : Port} (h : Completes p) (ch : Byte) :
    ∃ q out buff, p.debugAnsy ch = some (q, out) ∧ commands out = [buff] ∧
      buff.toList = (p.sRevBuff.toList.set p.sIndex ch).take 8 ∧ q.sIndex = 0 ∧
      q.revStauts = 0 ∧ q.sRevBuff = Vector.replicate 100 0 := by
  obtain ⟨q, buff, effects, hq, hbuff, hblank, hindex, hflag⟩ := Port.searched_of_completes h ch
  have htext := Port.text_of_blank hblank
  refine ⟨q, .getCmdData buff :: effects.map .effect, buff, ?_,
    congrArg (buff :: ·) (commands_effects effects), hbuff, hindex, hflag, hblank⟩
  have hnul : (0 : Byte) ∈ q.sRevBuff := by
    rw [hblank]
    exact Vector.mem_replicate.mpr ⟨by decide, rfl⟩
  rw [Port.debugAnsy_of_searched hq, if_pos hnul, htext, if_neg (by decide)]
  unfold Port.record
  rw [htext, if_neg (fun hr => absurd hr.1 (by decide)), Option.map_some]
  dsimp only
  rw [List.append_nil]

/-- A byte that is not the last one of a command. -/
theorem debugAnsy_of_not {p : Port} (hi : p.sIndex ≤ 99) (h : ¬ Completes p) (ch : Byte) :
    ¬ Defined p ch ∧ p.debugAnsy ch = none ∨
    ∃ q out, Defined p ch ∧ p.debugAnsy ch = some (q, out) ∧ commands out = [] ∧
      q.revStauts = p.flag ch ∧
      (¬ Known p ch ∧ Plain p ch q ∨ Known p ch ∧ q.sIndex = 0) := by
  obtain ⟨q, hq, hplain⟩ := Port.searched_of_not hi h ch
  have htext : q.text = p.textWith ch := congrArg (CString.text 0) hplain.buff
  have hnul : (0 : Byte) ∈ q.sRevBuff ↔
      ch = 0 ∨ ∃ i, i ≠ p.sIndex ∧ p.sRevBuff.toList[i]? = some 0 := by
    rw [← Vector.mem_toList_iff, hplain.buff]
    exact CString.mem_set_iff (by simpa using Nat.lt_succ_of_le hi)
  rw [Port.debugAnsy_of_searched hq, htext]
  by_cases hmem : (0 : Byte) ∈ q.sRevBuff
  · rw [if_pos hmem]
    by_cases hbegin : beginText <:+: p.textWith ch
    · rw [if_pos hbegin]
      exact .inr ⟨_, _, .inr ⟨hnul.mp hmem, fun hr => absurd hbegin hr.1⟩, rfl, rfl, hplain.flag,
        .inr ⟨.inl hbegin, rfl⟩⟩
    · rw [if_neg hbegin]
      unfold Port.record
      rw [htext]
      by_cases hrec : ccidText <:+: p.textWith ch ∧ ch = semicolon
      · rw [if_pos hrec]
        unfold Port.storeDevice
        rw [htext]
        by_cases hlen : 1 ≤ (Port.sscanfCcid (p.textWith ch)).length ∧
            (Port.sscanfCcid (p.textWith ch)).length < 20
        · rw [if_pos hlen]
          exact .inr ⟨_, _, .inr ⟨hnul.mp hmem, fun _ => hlen⟩, rfl, rfl, hplain.flag,
            .inr ⟨.inr ⟨hbegin, hrec⟩, rfl⟩⟩
        · rw [if_neg hlen]
          refine .inl ⟨?_, rfl⟩
          rintro (hc | ⟨-, hfits⟩)
          · exact h hc
          · exact hlen (hfits ⟨hbegin, hrec⟩)
      · rw [if_neg hrec]
        exact .inr ⟨_, _, .inr ⟨hnul.mp hmem, fun hr => absurd hr.2 hrec⟩, rfl, rfl, hplain.flag,
          .inl ⟨fun hknown => hknown.elim hbegin fun hr => hrec hr.2, hplain⟩⟩
  · rw [if_neg hmem]
    refine .inl ⟨?_, rfl⟩
    rintro (hc | ⟨hterm, -⟩)
    · exact h hc
    · exact hmem (hnul.mpr hterm)

theorem defined_of_step {p q : Port} (hi : p.sIndex ≤ 99) {ch : Byte}
    (h : step p ch = some q) : Defined p ch := by
  by_cases hc : Completes p
  · exact .inl hc
  · obtain ⟨-, hcall⟩ | ⟨-, -, hdefined, -⟩ := debugAnsy_of_not hi hc ch
    · rw [step, hcall] at h
      cases h
    · exact hdefined

theorem step_resets {p q : Port} (hi : p.sIndex ≤ 99) {ch : Byte} (hresets : Resets p ch)
    (h : step p ch = some q) : q.sIndex = 0 := by
  by_cases hc : Completes p
  · obtain ⟨q', out, buff, hcall, -, -, hzero, -⟩ := debugAnsy_of_completes hc ch
    rw [step, hcall] at h
    obtain rfl := Option.some.inj h
    exact hzero
  · obtain ⟨-, hcall⟩ | ⟨q', out, -, hcall, -, -, hplain⟩ := debugAnsy_of_not hi hc ch
    · rw [step, hcall] at h
      cases h
    · rw [step, hcall] at h
      obtain rfl := Option.some.inj h
      obtain ⟨hunknown, hplain⟩ | ⟨-, hzero⟩ := hplain
      · obtain hcompletes | hlast | hknown := hresets
        · exact absurd hcompletes hc
        · exact hplain.index.trans (if_pos hlast)
        · exact absurd hknown hunknown
      · exact hzero

/-! ## Bytes in step -/

theorem take_set_succ {l : List Byte} {i : Nat} (hi : i < l.length) (ch : Byte) :
    (l.set i ch).take (i + 1) = l.take i ++ [ch] := by
  rw [List.take_add_one, List.take_set_of_le (Nat.le_refl i), List.getElem?_set_self hi]
  rfl

theorem feed_cons {p q : Port} {ch : Byte} {out : List Output}
    (h : p.debugAnsy ch = some (q, out)) (rest : List Byte) : feed p (ch :: rest) =
      (feed q rest).map fun fed => (fed.1, commands out ++ fed.2) := by
  rw [feed, h, Option.bind_some]

theorem feed_append {p q : Port} {xs : List Byte} (h : feed p xs = some (q, []))
    (ys : List Byte) : feed p (xs ++ ys) = feed q ys := by
  induction xs generalizing p with
  | nil =>
    obtain ⟨rfl, -⟩ := Prod.mk.inj (Option.some.inj h)
    rfl
  | cons ch xs ih =>
    obtain ⟨⟨p₁, out⟩, hcall, hrest⟩ := Option.bind_eq_some_iff.mp h
    obtain ⟨⟨r, cmds⟩, hfeed, hr⟩ := Option.map_eq_some_iff.mp hrest
    obtain ⟨rfl, hcmds⟩ := Prod.mk.inj hr
    obtain ⟨hout, rfl⟩ := List.append_eq_nil_iff.mp hcmds
    rw [List.cons_append, feed_cons hcall, ih hfeed]
    dsimp only at hout
    rw [hout]
    exact Option.map_id'

theorem run_eq_feed (p : Port) (bytes : List Byte) :
    run step p bytes = (feed p bytes).map Prod.fst := by
  induction bytes generalizing p with
  | nil => rfl
  | cons ch rest ih =>
    rw [run_cons, step, feed, Option.bind_map, Option.map_bind]
    refine congrArg _ (funext fun called => ?_)
    rw [Function.comp_apply, ih, Function.comp_apply, Option.map_map]
    rfl

/-- A byte in step that is not the last of its frame is stored, and that is all. -/
theorem InStep.cons {p : Port} {ch : Byte} {rest : List Byte} (hi : p.sIndex ≤ 99)
    (h : InStep p (ch :: rest)) (hne : rest ≠ []) :
    ∃ q out, p.debugAnsy ch = some (q, out) ∧ commands out = [] ∧ Plain p ch q ∧
      q.sIndex = p.sIndex + 1 ∧ q.sIndex ≤ 99 ∧ InStep q rest := by
  obtain ⟨hdefined, hresets, hrest⟩ := h
  have hnot := hresets hne
  obtain ⟨hundefined, -⟩ | ⟨q, out, -, hcall, hcmds, -, hplain⟩ :=
    debugAnsy_of_not hi (fun hc => hnot (.inl hc)) ch
  · exact absurd hdefined hundefined
  · obtain ⟨-, hplain⟩ | ⟨hknown, -⟩ := hplain
    · have hlast : p.sIndex ≠ 99 := fun heq => hnot (.inr (.inl heq))
      have hindex : q.sIndex = p.sIndex + 1 := hplain.index.trans (if_neg hlast)
      exact ⟨q, out, hcall, hcmds, hplain, hindex, by omega,
        hrest q (congrArg (Option.map Prod.fst) hcall)⟩
    · exact absurd (.inr (.inr hknown)) hnot

/-- The bytes in step up to the last one of a frame are collected one behind the other. -/
theorem InStep.append {p : Port} {xs ys : List Byte} (hi : p.sIndex ≤ 99)
    (h : InStep p (xs ++ ys)) (hne : ys ≠ []) :
    ∃ q, feed p xs = some (q, []) ∧ InStep q ys ∧ q.sIndex = p.sIndex + xs.length ∧
      q.sIndex ≤ 99 ∧ (0 < p.sIndex → q.revStauts = p.revStauts) ∧
      q.sRevBuff.toList.take q.sIndex = p.sRevBuff.toList.take p.sIndex ++ xs := by
  induction xs generalizing p with
  | nil => exact ⟨p, rfl, h, rfl, hi, fun _ => rfl, (List.append_nil _).symm⟩
  | cons ch xs ih =>
    obtain ⟨p₁, out, hcall, hcmds, hplain, hindex, hle, hrest⟩ :=
      h.cons hi (List.append_ne_nil_of_right_ne_nil _ hne)
    obtain ⟨q, hfeed, hin, hq, hqle, hflag, htake⟩ := ih hle hrest
    refine ⟨q, ?_, hin, ?_, hqle, fun hpos => ?_, ?_⟩
    · rw [feed_cons hcall, hfeed, hcmds]
      rfl
    · rw [hq, hindex, List.length_cons]
      omega
    · rw [hflag (by omega), hplain.flag]
      exact if_neg fun hzero => hpos.ne' hzero.2
    · have hlt : p.sIndex < p.sRevBuff.toList.length := by
        rw [Vector.length_toList]
        omega
      rw [htake, hplain.buff, hindex, take_set_succ hlt, List.append_assoc]
      rfl

theorem Frame.length_bytes (f : Frame) : f.bytes.toList.length = 8 := Vector.length_toList

/-- The first byte, six bytes, and the last one. -/
theorem Frame.exists_eq (f : Frame) : ∃ mid last,
    f.bytes.toList = revDeviceId :: (mid ++ [last]) ∧ mid.length = 6 := by
  obtain ⟨rest, hrest⟩ := List.head?_eq_some_iff.mp f.head
  have hlen := f.length_bytes
  rw [hrest, List.length_cons] at hlen
  have hne : rest ≠ [] := fun hnil => by
    rw [hnil] at hlen
    cases hlen
  have hsplit := List.dropLast_concat_getLast hne
  refine ⟨rest.dropLast, rest.getLast hne, hrest.trans (congrArg _ hsplit.symm), ?_⟩
  rw [List.length_dropLast]
  omega

/-- A frame in step takes the index on by 8 or to 0. One that finds it at 0 is delivered and
leaves it there. -/
theorem InStep.frame {p : Port} {f : Frame} (hi : p.sIndex ≤ 99)
    (h : InStep p f.bytes.toList) : ∃ q cmds, feed p f.bytes.toList = some (q, cmds) ∧
      q.sIndex ≤ 99 ∧ (q.sIndex = 0 ∨ q.sIndex = p.sIndex + 8) ∧
      (p.sIndex = 0 → q.sIndex = 0 ∧ cmds = [f.bytes]) := by
  obtain ⟨mid, last, hbytes, hmid⟩ := f.exists_eq
  rw [hbytes] at h ⊢
  obtain ⟨p₁, out₁, hcall₁, hcmds₁, hplain₁, hindex₁, hle₁, hin₁⟩ := h.cons hi (by simp)
  obtain ⟨p₂, hfeed₂, hin₂, hindex₂, hle₂, hflag₂, htake₂⟩ :=
    hin₁.append hle₁ (List.cons_ne_nil last [])
  have hindex : p₂.sIndex = p.sIndex + 7 := by omega
  have hfeed : feed p (revDeviceId :: (mid ++ [last])) =
      (p₂.debugAnsy last).map fun called => (called.1, commands called.2) := by
    rw [feed_cons hcall₁, feed_append hfeed₂, hcmds₁, feed, Option.map_bind]
    cases p₂.debugAnsy last with
    | none => rfl
    | some called =>
      change some (called.1, [] ++ (commands called.2 ++ [])) = some _
      rw [List.append_nil, List.nil_append]
  have hstarted : p.sIndex = 0 → Completes p₂ := by
    intro hzero
    refine ⟨?_, by rw [hindex, hzero]⟩
    rw [hflag₂ (by omega), hplain₁.flag]
    exact if_pos ⟨rfl, hzero⟩
  by_cases hc : Completes p₂
  · obtain ⟨q, out, buff, hcall, hcmds, hbuff, hzero, -⟩ := debugAnsy_of_completes hc last
    rw [hfeed, hcall, Option.map_some, hcmds]
    refine ⟨q, [buff], rfl, by omega, .inl hzero, fun hstart => ⟨hzero, ?_⟩⟩
    refine congrArg (fun b => [b]) (Vector.toList_inj.mp ?_)
    have hfirst : p₁.sRevBuff.toList.take p₁.sIndex = [revDeviceId] := by
      rw [hplain₁.buff, hindex₁, hstart, take_set_succ (by simp), List.take_zero]
      rfl
    have hlast : p₂.sIndex + 1 = 8 := by omega
    rw [hbytes, hbuff, ← hlast, take_set_succ (by simpa using Nat.lt_succ_of_le hle₂), htake₂,
      hfirst, List.append_assoc]
    rfl
  · obtain ⟨hundefined, -⟩ | ⟨q, out, -, hcall, hcmds, -, hplain⟩ :=
      debugAnsy_of_not hle₂ hc last
    · exact absurd hin₂.1 hundefined
    · rw [hfeed, hcall, Option.map_some, hcmds]
      refine ⟨q, [], rfl, ?_, ?_, fun hstart => absurd (hstarted hstart) hc⟩
      · obtain ⟨-, hplain⟩ | ⟨-, hzero⟩ := hplain
        · rw [hplain.index]
          split
          · exact Nat.zero_le _
          · omega
        · omega
      · obtain ⟨-, hplain⟩ | ⟨-, hzero⟩ := hplain
        · rw [hplain.index]
          split
          · exact .inl rfl
          · exact .inr (by omega)
        · exact .inl hzero

/-! ## Frames in step -/

theorem stream_cons (f : Frame) (fs : List Frame) :
    stream (f :: fs) = f.bytes.toList ++ stream fs := rfl

/-- Frames in step that find the index at 0 leave it there, and so do more than there is room for
in the buffer. -/
theorem AllInStep.run {p : Port} (hi : p.sIndex ≤ 99) {xs ys : List Frame}
    (h : AllInStep p (xs ++ ys)) : ∃ q, run step p (stream xs) = some q ∧ q.sIndex ≤ 99 ∧
      AllInStep q ys ∧ (p.sIndex = 0 → q.sIndex = 0) ∧
      (q.sIndex = 0 ∨ p.sIndex + 8 * xs.length ≤ q.sIndex) := by
  induction xs generalizing p with
  | nil => exact ⟨p, rfl, hi, h, id, .inr (Nat.le_refl _)⟩
  | cons f xs ih =>
    obtain ⟨hframe, hrest⟩ := h
    obtain ⟨p₁, cmds, hfeed, hle, hindex, hstays⟩ := hframe.frame hi
    have hrun : Runs.run step p f.bytes.toList = some p₁ := by
      rw [run_eq_feed, hfeed]
      rfl
    obtain ⟨q, hq, hqle, hin, hzero, hqindex⟩ := ih hle (hrest p₁ hrun)
    refine ⟨q, ?_, hqle, hin, fun hstart => hzero (hstays hstart).1, ?_⟩
    · rw [stream_cons, run_append, hrun]
      exact hq
    · obtain hback | hnext := hindex
      · exact .inl (hzero hback)
      · refine hqindex.imp_right fun hlong => ?_
        rw [List.length_cons]
        omega

/-- After 13 frames in step the index has come back to 0, and every frame is delivered. -/
theorem resyncs_of_inStep {g : StuFlashData} {noise : List Byte} {p : Port}
    (hrun : run step (powerOn g) noise = some p) (hin : ∀ fs, AllInStep p fs) :
    Resyncs g noise := by
  have hi : p.sIndex ≤ 99 := run_invariant (J := fun p : Port => p.sIndex ≤ 99)
    (fun _ _ _ hi => step_index hi) (Nat.zero_le _) hrun
  refine ⟨13, fun fs i h hn => ?_⟩
  have hsplit : fs.take i ++ fs[i] :: fs.drop (i + 1) = fs := by
    rw [List.getElem_cons_drop h, List.take_append_drop]
  obtain ⟨q, hq, hqle, ⟨hframe, -⟩, -, hindex⟩ := (hsplit ▸ hin fs).run hi
  have hlen : (fs.take i).length = i := List.length_take_of_le h.le
  have hzero : q.sIndex = 0 := by omega
  obtain ⟨r, cmds, hfeed, -, -, hdelivers⟩ := hframe.frame hqle
  refine ⟨q, ?_, r, ?_⟩
  · rw [run_append, hrun]
    exact hq
  · rw [hfeed, (hdelivers hzero).2]

/-! ## A blank buffer -/

/-- Storing the next byte of a frame in a blank buffer. -/
theorem set_collected {xs : List Byte} (h : xs.length < 99) (ch : Byte) :
    (xs ++ List.replicate (100 - xs.length) 0).set xs.length ch =
      (xs ++ [ch]) ++ 0 :: List.replicate (98 - xs.length) 0 := by
  have hn : 100 - xs.length = (98 - xs.length) + 1 + 1 := by omega
  rw [hn, List.replicate_succ, List.replicate_succ, List.set_append_right _ _ (Nat.le_refl _),
    Nat.sub_self, List.set_cons_zero, List.append_assoc]
  rfl

/-- A frame that is collected in a blank buffer is in step, and leaves a blank buffer. -/
theorem inStep_of_collected {f : Frame} {p : Port} {xs ys : List Byte}
    (hf : f.bytes.toList = xs ++ ys) (hflag : xs ≠ [] → p.revStauts = 1)
    (hindex : p.sIndex = xs.length)
    (hbuff : p.sRevBuff.toList = xs ++ List.replicate (100 - xs.length) 0) : InStep p ys ∧
      ∀ q, ys ≠ [] → run step p ys = some q →
        q.sIndex = 0 ∧ q.sRevBuff = Vector.replicate 100 0 := by
  induction ys generalizing p xs with
  | nil => exact ⟨trivial, fun q hne => absurd rfl hne⟩
  | cons ch rest ih =>
    have hlen := f.length_bytes
    rw [hf, List.length_append, List.length_cons] at hlen
    have hf₁ : f.bytes.toList = (xs ++ [ch]) ++ rest := by
      rw [hf, List.append_assoc]
      rfl
    have hset : p.sRevBuff.toList.set p.sIndex ch =
        (xs ++ [ch]) ++ 0 :: List.replicate (98 - xs.length) 0 := by
      rw [hbuff, hindex]
      exact set_collected (by omega) ch
    have hspelled : ∀ word, word <:+: p.textWith ch → word <:+: f.bytes.toList := by
      intro word hword
      unfold Port.textWith at hword
      rw [hset] at hword
      exact hf₁ ▸ List.infix_append_of_infix_left
        (hword.trans (CString.text_prefix 0 _ _).isInfix)
    have hnotRec : ¬ Recognised (p.textWith ch) ch := fun hr => f.noCcid (hspelled _ hr.2.1)
    have hunknown : ¬ Known p ch := fun hknown =>
      hknown.elim (fun hbegin => f.noBegin (hspelled _ hbegin)) hnotRec
    have hi : p.sIndex ≤ 99 := by omega
    have hdefined : Defined p ch := by
      refine .inr ⟨?_, fun hr => absurd hr hnotRec⟩
      refine (CString.mem_set_iff (by simpa using Nat.lt_succ_of_le hi)).mp ?_
      rw [hset]
      exact List.mem_append_right _ List.mem_cons_self
    have hnext : p.flag ch = 1 := by
      unfold Port.flag
      cases xs with
      | nil =>
        have hhead := f.head
        rw [hf] at hhead
        exact if_pos ⟨Option.some.inj hhead, hindex⟩
      | cons a xs => exact ite_eq_left_iff.mpr fun _ => hflag (List.cons_ne_nil a xs)
    by_cases hrest : rest = []
    · subst hrest
      refine ⟨⟨hdefined, fun hne => absurd rfl hne, fun _ _ => trivial⟩, fun q _ hrun => ?_⟩
      have hc : Completes p := by
        rw [List.length_nil] at hlen
        refine ⟨hflag fun hnil => ?_, by omega⟩
        rw [hnil, List.length_nil] at hlen
        omega
      obtain ⟨r, out, buff, hcall, -, -, hr, -, hblank⟩ := debugAnsy_of_completes hc ch
      rw [run_cons, step, hcall] at hrun
      obtain rfl := Option.some.inj hrun
      exact ⟨hr, hblank⟩
    · have hpos := List.length_pos_iff.mpr hrest
      have hc : ¬ Completes p := fun hc => by
        have := hc.2
        omega
      obtain ⟨hundefined, -⟩ | ⟨r, out, -, hcall, -, hrflag, hplain⟩ := debugAnsy_of_not hi hc ch
      · exact absurd hdefined hundefined
      · have hplain := (hplain.resolve_right fun hr => hunknown hr.1).2
        have hstep : step p ch = some r := congrArg (Option.map Prod.fst) hcall
        obtain ⟨hin, hend⟩ := ih hf₁ (fun _ => hrflag.trans hnext)
          (by rw [hplain.index, if_neg (by omega), List.length_append, hindex]; rfl) (by
            have hn : 100 - (xs ++ [ch]).length = 98 - xs.length + 1 := by
              rw [List.length_append, List.length_singleton]
              omega
            rw [hplain.buff, hset, hn]
            rfl)
        refine ⟨⟨hdefined, fun _ hr => ?_, fun q hq => ?_⟩, fun q _ hrun => ?_⟩
        · obtain hcompletes | hlast | hknown := hr
          · exact hc hcompletes
          · omega
          · exact hunknown hknown
        · obtain rfl := Option.some.inj (hstep.symm.trans hq)
          exact hin
        · rw [run_cons, hstep] at hrun
          exact hend q hrest hrun

/-- With the index at 0 in a blank buffer, as after power on, a command or a known text, all frames
are in step. -/
theorem allInStep_of_blank {p : Port} (hindex : p.sIndex = 0)
    (hblank : p.sRevBuff = Vector.replicate 100 0) (fs : List Frame) : AllInStep p fs := by
  induction fs generalizing p with
  | nil => trivial
  | cons f fs ih =>
    obtain ⟨hin, hend⟩ := inStep_of_collected (List.nil_append f.bytes.toList).symm
      (fun hne => absurd rfl hne) hindex (hblank ▸ rfl)
    refine ⟨hin, fun q hrun => ?_⟩
    obtain ⟨hq, hqblank⟩ := hend q (List.length_pos_iff.mp (by rw [f.length_bytes]; decide)) hrun
    exact ih hq hqblank

/-! ## Bytes out of step -/

/-- The device id and seven bytes of no meaning. -/
def filler : Frame where
  bytes := #v[0x01, 0x03, 0x03, 0x03, 0x03, 0x03, 0x03, 0x03]
  head := rfl
  noBegin := by decide
  noCcid := by decide

theorem filler_ne_zero : ∀ b ∈ filler.bytes.toList, b ≠ 0 := by decide

/-- A byte that leaves the text empty is stored, and that is all. -/
theorem step_of_blank {p : Port} (hi : p.sIndex ≤ 99) (hc : ¬ Completes p) {ch : Byte}
    (hblank : (p.sRevBuff.toList.set p.sIndex ch)[0]? = some 0) :
    ∃ q, step p ch = some q ∧ Plain p ch q := by
  have htext : p.textWith ch = [] := CString.text_eq_nil hblank
  have hunknown : ¬ Known p ch := by
    unfold Known Recognised
    rw [htext]
    exact fun hknown => hknown.elim (fun hbegin => absurd hbegin (by decide))
      fun hrec => absurd hrec.2.1 (by decide)
  obtain ⟨hundefined, -⟩ | ⟨q, out, -, hcall, -, -, hplain⟩ := debugAnsy_of_not hi hc ch
  · refine absurd (.inr ⟨?_, fun hr => absurd (.inr hr) hunknown⟩) hundefined
    exact (CString.mem_set_iff (by simpa using Nat.lt_succ_of_le hi)).mp
      (List.mem_of_getElem? hblank)
  · refine ⟨q, congrArg (Option.map Prod.fst) hcall, ?_⟩
    exact (hplain.resolve_right fun hr => hunknown hr.1).2

/-- The same for a byte behind the terminator in the first place. -/
theorem step_of_shield {p : Port} (hi : p.sIndex ≤ 99) (hpos : 0 < p.sIndex)
    (hc : ¬ Completes p) (hzero : p.sRevBuff.toList[0]? = some 0) (ch : Byte) :
    ∃ q, step p ch = some q ∧ Plain p ch q ∧ q.sRevBuff.toList[0]? = some 0 := by
  have hblank : (p.sRevBuff.toList.set p.sIndex ch)[0]? = some 0 := by
    rw [List.getElem?_set_ne hpos.ne', hzero]
  obtain ⟨q, hstep, hplain⟩ := step_of_blank hi hc hblank
  exact ⟨q, hstep, hplain, hplain.buff ▸ hblank⟩

theorem flag_of_plain {p q : Port} {ch : Byte} (h : Plain p ch q)
    (hne : ch = revDeviceId → 0 < p.sIndex) : q.revStauts = p.revStauts :=
  h.flag.trans (if_neg fun hfirst => (hne hfirst.1).ne' hfirst.2)

/-- Bytes of a command behind a terminator are collected until there are eight, and the index goes
back to 0. -/
theorem run_command {p : Port} (hflag : p.revStauts = 1) (hpos : 0 < p.sIndex)
    (hzero : p.sRevBuff.toList[0]? = some 0) (bytes : List Byte)
    (hlen : p.sIndex + bytes.length = 8) (hne : bytes ≠ []) :
    ∃ q, run step p bytes = some q ∧ q.sIndex = 0 ∧ q.revStauts = 0 := by
  induction bytes generalizing p with
  | nil => exact absurd rfl hne
  | cons ch rest ih =>
    rw [List.length_cons] at hlen
    by_cases hrest : rest = []
    · subst hrest
      have hc : Completes p := ⟨hflag, by simpa using hlen⟩
      obtain ⟨q, out, buff, hcall, -, -, hindex, hq, -⟩ := debugAnsy_of_completes hc ch
      refine ⟨q, ?_, hindex, hq⟩
      rw [run_cons, step, hcall]
      rfl
    · have hrest' := List.length_pos_iff.mpr hrest
      have hc : ¬ Completes p := fun hc => by
        have := hc.2
        omega
      obtain ⟨q, hstep, hplain, hq⟩ := step_of_shield (by omega) hpos hc hzero ch
      have hindex : q.sIndex = p.sIndex + 1 := hplain.index.trans (if_neg (by omega))
      rw [run_cons, hstep, Option.bind_some]
      exact ih ((flag_of_plain hplain fun _ => hpos).trans hflag) (by omega) hq (by omega) hrest

/-- A byte that is stored over the only terminator. -/
theorem step_of_full {p : Port} (hi : p.sIndex ≤ 99) (hc : ¬ Completes p) {ch : Byte}
    (hne : ch ≠ 0) (hfull : ∀ i, i ≠ p.sIndex → p.sRevBuff.toList[i]? ≠ some 0) :
    step p ch = none := by
  obtain ⟨-, hcall⟩ | ⟨q, out, hdefined, -⟩ := debugAnsy_of_not hi hc ch
  · exact congrArg (Option.map Prod.fst) hcall
  · obtain hcompletes | ⟨hzero | ⟨i, hip, hzero⟩, -⟩ := hdefined
    · exact absurd hcompletes hc
    · exact absurd hzero hne
    · exact absurd hzero (hfull i hip)

/-- Bytes other than zero that are not taken for a command fill the buffer, and the first one of
the next round is stored over the last terminator. -/
theorem run_fill {p : Port} (hflag : p.revStauts ≠ 1) (hpos : 0 < p.sIndex) (hi : p.sIndex ≤ 99)
    (hzero : p.sRevBuff.toList[0]? = some 0)
    (hfull : ∀ i, 0 < i → i < p.sIndex → p.sRevBuff.toList[i]? ≠ some 0) {bytes : List Byte}
    (hbytes : ∀ b ∈ bytes, b ≠ 0) (hlen : 101 ≤ p.sIndex + bytes.length) :
    run step p bytes = none := by
  induction bytes generalizing p with
  | nil =>
    rw [List.length_nil] at hlen
    omega
  | cons ch rest ih =>
    have hrest : ∀ b ∈ rest, b ≠ 0 := fun b hb => hbytes b (List.mem_cons_of_mem ch hb)
    have hch := hbytes ch List.mem_cons_self
    rw [List.length_cons] at hlen
    obtain ⟨q, hstep, hplain, hqzero⟩ := step_of_shield hi hpos (fun hc => hflag hc.1) hzero ch
    have hqfull : ∀ i, 0 < i → i < p.sIndex + 1 → q.sRevBuff.toList[i]? ≠ some 0 := by
      intro i hi0 hilt heq
      rw [hplain.buff] at heq
      by_cases hip : i = p.sIndex
      · subst hip
        rw [List.getElem?_set_self (by simpa using Nat.lt_succ_of_le hi)] at heq
        exact hch (Option.some.inj heq)
      · rw [List.getElem?_set_ne (Ne.symm hip)] at heq
        exact hfull i hi0 (by omega) heq
    rw [run_cons, hstep, Option.bind_some]
    by_cases hlast : p.sIndex = 99
    · have hindex : q.sIndex = 0 := hplain.index.trans (if_pos hlast)
      cases rest with
      | nil =>
        rw [List.length_nil] at hlen
        omega
      | cons b rest =>
        have hstuck : step q b = none := by
          refine step_of_full (by omega) (fun hc => absurd (hindex.symm.trans hc.2) (by decide))
            (hrest b List.mem_cons_self) fun i hiq heq => ?_
          have hlt := (List.getElem?_eq_some_iff.mp heq).1
          rw [Vector.length_toList] at hlt
          exact hqfull i (by omega) (by omega) heq
        rw [run_cons, hstuck]
        rfl
    · have hindex : q.sIndex = p.sIndex + 1 := hplain.index.trans (if_neg hlast)
      exact ih ((flag_of_plain hplain fun _ => hpos).trans_ne hflag) (by omega) (by omega) hqzero
        (fun i hi0 hilt => hqfull i hi0 (by omega)) hrest (by omega)

/-- The end of a frame that breaks up a text and means nothing. -/
def meaningless (n : Nat) : List Byte := 0 :: List.replicate n 3

theorem Frame.splice {f : Frame} {xs rest : List Byte} (hf : f.bytes.toList = xs ++ rest)
    (hne : xs ≠ []) {n : Nat} (hlen : xs.length + (n + 1) = 8) :
    ∃ f' : Frame, f'.bytes.toList = xs ++ meaningless n := by
  have hletters : ∀ b ∈ meaningless n, b = 0 ∨ b = 3 := fun b hb =>
    (List.mem_cons.mp hb).imp_right List.eq_of_mem_replicate
  have hspells : ∀ word : List Byte, word ≠ [] → 0 ∉ word → 3 ∉ word →
      ¬ word <:+: f.bytes.toList → ¬ word <:+: xs ++ meaningless n := by
    intro word hword hzero hthree hnot hspelled
    refine hnot (hf ▸ List.infix_append_of_infix_left
      (CString.infix_left_of_append hspelled (fun b hb => ?_) hword))
    obtain rfl | rfl := hletters b hb
    · exact hzero
    · exact hthree
  have hlength : (xs ++ meaningless n).length = 8 := by
    rw [List.length_append, meaningless, List.length_cons, List.length_replicate]
    exact hlen
  refine ⟨⟨⟨(xs ++ meaningless n).toArray, hlength⟩, ?_, ?_, ?_⟩, rfl⟩
  · obtain ⟨a, xs, rfl⟩ := List.exists_cons_of_ne_nil hne
    have hhead := f.head
    rw [hf] at hhead
    exact hhead
  · exact hspells _ (by decide) (by decide) (by decide) f.noBegin
  · exact hspells _ (by decide) (by decide) (by decide) f.noCcid

/-- A zero at the index 0 is stored, and that is all. -/
theorem step_zero {p : Port} (hindex : p.sIndex = 0) : ∃ q, step p 0 = some q ∧
    q.sIndex = 1 ∧ q.revStauts = p.revStauts ∧ q.sRevBuff.toList[0]? = some 0 := by
  have hblank : (p.sRevBuff.toList.set p.sIndex 0)[0]? = some 0 := by
    rw [hindex]
    exact List.getElem?_set_self (by simp)
  obtain ⟨q, hstep, hplain⟩ := step_of_blank (by omega)
    (fun hc => absurd (hindex.symm.trans hc.2) (by decide)) hblank
  refine ⟨q, hstep, ?_, flag_of_plain hplain nofun, hplain.buff ▸ hblank⟩
  rw [hplain.index, hindex]
  rfl

/-- A port whose index is 0 inside a frame can be sent astray. -/
theorem run_astray {p : Port} (hindex : p.sIndex = 0) (hflag : p.revStauts ≠ 1) (n : Nat) :
    run step p (meaningless n ++ stream (List.replicate 13 filler)) = none := by
  obtain ⟨q, hstep, hq, hqflag, hzero⟩ := step_zero hindex
  rw [meaningless, List.cons_append, run_cons, hstep, Option.bind_some]
  refine run_fill (hqflag.trans_ne hflag) (by omega) (by omega) hzero (fun i _ _ => by omega)
    (fun b hb => ?_) ?_
  · obtain hb | hb := List.mem_append.mp hb
    · rw [List.eq_of_mem_replicate hb]
      decide
    · obtain ⟨f, hf, hb⟩ := List.mem_flatMap.mp hb
      rw [List.eq_of_mem_replicate hf] at hb
      exact filler_ne_zero b hb
  · have hlen : (stream (List.replicate 13 filler)).length = 104 := rfl
    rw [List.length_append, hlen]
    omega

/-- One that takes the next eight bytes for a command in any case is at the same place after
them. -/
theorem run_astray_command {p : Port} (hindex : p.sIndex = 0) (hflag : p.revStauts = 1)
    {xs : List Byte} {n : Nat} (hlen : xs.length + (n + 1) = 8) (hne : xs ≠ []) :
    run step p (meaningless n ++ (xs ++ meaningless n ++
      stream (List.replicate 13 filler))) = none := by
  obtain ⟨q, hstep, hq, hqflag, hzero⟩ := step_zero hindex
  have hpos := List.length_pos_iff.mpr hne
  obtain ⟨r, hrun, hr, hrflag⟩ := run_command (hqflag.trans hflag) (by omega) hzero
    (List.replicate n 3 ++ xs)
    (by rw [List.length_append, List.length_replicate]; omega)
    (List.append_ne_nil_of_right_ne_nil _ hne)
  have hsplit : meaningless n ++ (xs ++ meaningless n ++ stream (List.replicate 13 filler)) =
      0 :: ((List.replicate n 3 ++ xs) ++
        (meaningless n ++ stream (List.replicate 13 filler))) := by
    simp [meaningless]
  rw [hsplit, run_cons, hstep, Option.bind_some, run_append, hrun]
  exact run_astray hr (by rw [hrflag]; decide) n

theorem exists_astray {p : Port} (hindex : p.sIndex = 0) {f : Frame} {xs rest : List Byte}
    (hf : f.bytes.toList = xs ++ rest) (hne : xs ≠ []) (hrest : rest ≠ []) :
    ∃ f' : Frame, ∃ zs fs, f'.bytes.toList = xs ++ zs ∧
      run step p (zs ++ stream fs) = none := by
  have hlen := f.length_bytes
  have hpos := List.length_pos_iff.mpr hne
  have hpos' := List.length_pos_iff.mpr hrest
  rw [hf, List.length_append] at hlen
  have hn : xs.length + ((7 - xs.length) + 1) = 8 := by omega
  obtain ⟨f', hf'⟩ := Frame.splice hf hne hn
  by_cases hflag : p.revStauts = 1
  · exact ⟨f', _, f' :: List.replicate 13 filler, hf', by
      rw [stream_cons, hf']
      exact run_astray_command hindex hflag hn hne⟩
  · exact ⟨f', _, _, hf', run_astray hindex hflag _⟩

/-- If a byte of a frame is out of step, the frame can be changed behind it so that some frames
lead out of the buffer. -/
theorem exists_undefined {p : Port} (hi : p.sIndex ≤ 99) {f : Frame} {xs ys : List Byte}
    (hf : f.bytes.toList = xs ++ ys) (h : ¬ InStep p ys) :
    ∃ f' : Frame, ∃ zs fs, f'.bytes.toList = xs ++ zs ∧
      run step p (zs ++ stream fs) = none := by
  induction ys generalizing p xs with
  | nil => exact absurd trivial h
  | cons ch rest ih =>
    have hf₁ : f.bytes.toList = (xs ++ [ch]) ++ rest := by
      rw [hf, List.append_assoc]
      rfl
    have hextend : ∀ q, step p ch = some q →
        (∃ f' : Frame, ∃ zs fs, f'.bytes.toList = (xs ++ [ch]) ++ zs ∧
          run step q (zs ++ stream fs) = none) →
        ∃ f' : Frame, ∃ zs fs, f'.bytes.toList = xs ++ zs ∧
          run step p (zs ++ stream fs) = none := by
      rintro q hstep ⟨f', zs, fs, hf', hnone⟩
      refine ⟨f', ch :: zs, fs, by rw [hf', List.append_assoc]; rfl, ?_⟩
      rw [List.cons_append, run_cons, hstep]
      exact hnone
    cases hstep : step p ch with
    | none =>
      refine ⟨f, ch :: rest, [], hf, ?_⟩
      rw [List.cons_append, run_cons, hstep]
      rfl
    | some q =>
      by_cases hreset : rest ≠ [] ∧ Resets p ch
      · exact hextend q hstep (exists_astray (step_resets hi hreset.2 hstep) hf₁ (by simp)
          hreset.1)
      · refine hextend q hstep (ih (step_index hi hstep) hf₁ fun hrest => h ?_)
        refine ⟨defined_of_step hi hstep, fun hne hr => hreset ⟨hne, hr⟩, fun q' hq' => ?_⟩
        obtain rfl := Option.some.inj (hstep.symm.trans hq')
        exact hrest

theorem exists_undefined_stream {p : Port} (hi : p.sIndex ≤ 99) {fs : List Frame}
    (h : ¬ AllInStep p fs) : ∃ fs', run step p (stream fs') = none := by
  induction fs generalizing p with
  | nil => exact absurd trivial h
  | cons f fs ih =>
    by_cases hframe : InStep p f.bytes.toList
    · obtain ⟨q, hrest⟩ := not_forall.mp (not_and.mp h hframe)
      obtain ⟨hrun, hrest⟩ := Classical.not_imp.mp hrest
      have hq : q.sIndex ≤ 99 := run_invariant (J := fun p : Port => p.sIndex ≤ 99)
        (fun _ _ _ hi => step_index hi) hi hrun
      obtain ⟨fs', hnone⟩ := ih hq hrest
      refine ⟨f :: fs', ?_⟩
      rw [stream_cons, run_append, hrun]
      exact hnone
    · obtain ⟨f', zs, fs', hf', hnone⟩ := exists_undefined hi (List.nil_append _).symm hframe
      refine ⟨f' :: fs', ?_⟩
      rw [stream_cons, hf']
      exact hnone

theorem stream_append (xs ys : List Frame) : stream (xs ++ ys) = stream xs ++ stream ys :=
  List.flatMap_append

/-- Noise after which the frames are recognised at some time leaves no frames that lead out of the
buffer. -/
theorem inStep_of_resyncs {g : StuFlashData} {noise : List Byte} (h : Resyncs g noise) :
    ∃ p, run step (powerOn g) noise = some p ∧ ∀ fs, AllInStep p fs := by
  obtain ⟨n, hdelivers⟩ := h
  have hdefined : ∀ fs, run step (powerOn g) (noise ++ stream fs) ≠ none := by
    intro fs hnone
    have hlen : fs.length + n < (fs ++ List.replicate (n + 1) filler).length := by
      rw [List.length_append, List.length_replicate]
      omega
    obtain ⟨p, hrun, -⟩ := hdelivers _ (fs.length + n) hlen (Nat.le_add_left n _)
    rw [List.take_length_add_append, stream_append, ← List.append_assoc, run_append, hnone] at hrun
    cases hrun
  cases hnoise : run step (powerOn g) noise with
  | none =>
    refine absurd ?_ (hdefined [])
    rw [run_append, hnoise]
    rfl
  | some p =>
    refine ⟨p, rfl, fun fs => by_contra fun hnot => ?_⟩
    have hi : p.sIndex ≤ 99 := run_invariant (J := fun p : Port => p.sIndex ≤ 99)
      (fun _ _ _ hi => step_index hi) (Nat.zero_le _) hnoise
    obtain ⟨fs', hnone⟩ := exists_undefined_stream hi hnot
    refine hdefined fs' ?_
    rw [run_append, hnoise]
    exact hnone

/-! ## Noise -/

/-- Whatever noise comes first, from some number on all frames that follow are delivered exactly
if the noise is read without leaving a buffer and, whatever frames follow, no byte of a frame but
its last one sends the index back to 0 or leaves a buffer. -/
theorem resyncs_iff (g : StuFlashData) (noise : List Byte) : Resyncs g noise ↔
    ∃ p, run step (powerOn g) noise = some p ∧ ∀ fs, AllInStep p fs :=
  ⟨inStep_of_resyncs, fun ⟨_, hrun, hin⟩ => resyncs_of_inStep hrun hin⟩

/-- Run mode 2. -/
def runMode : Frame where
  bytes := #v[0x01, 0x06, 0x00, 0x01, 0x00, 0x02, 0x00, 0x00]
  head := rfl
  noBegin := by decide
  noCcid := by decide

/-- The port has taken the fourth byte of a frame for the first one of a command. -/
def misframed : Port :=
  { powerOn (.ofBytes fun _ => 0) with
    revStauts := 1
    sRevBuff := Vector.ofFn fun i => [0x01, 0x00, 0x02].getD i 0
    sIndex := 5 }

theorem feed_misframed : feed misframed runMode.bytes.toList =
    some (misframed, [#v[0x01, 0x00, 0x02, 0x00, 0x00, 0x01, 0x06, 0x00]]) := by
  decide +kernel

theorem run_misframed (k : Nat) :
    run step misframed (stream (List.replicate k runMode)) = some misframed := by
  induction k with
  | zero => rfl
  | succ k ih =>
    rw [List.replicate_succ, stream_cons, run_append, run_eq_feed, feed_misframed]
    exact ih

/-- After a single byte of noise the end of the buffer comes behind the third byte of a frame, and
a fourth byte that is the device id begins a command there for ever. -/
theorem one_byte_of_noise : ¬ Resyncs (.ofBytes fun _ => 0) [0x02] := by
  rintro ⟨n, h⟩
  have hstart : run step (powerOn (.ofBytes fun _ => 0))
      ([0x02] ++ stream (List.replicate 14 runMode)) = some misframed := by decide +kernel
  obtain ⟨p, hrun, q, hdelivered⟩ := h (List.replicate (14 + n + 1) runMode) (14 + n)
    (by rw [List.length_replicate]; omega) (by omega)
  rw [List.take_replicate, Nat.min_eq_left (Nat.le_succ _), ← List.replicate_append_replicate,
    stream_append, ← List.append_assoc, run_append, hstart, Option.bind_some,
    run_misframed] at hrun
  obtain rfl := Option.some.inj hrun
  rw [List.getElem_replicate, feed_misframed] at hdelivered
  obtain ⟨-, hbytes⟩ := Prod.mk.inj (Option.some.inj hdelivered)
  revert hbytes
  decide

end ControlRTT.Applications.DebugSync
