import ControlRTT.Net.HandOver

/-! # The lines of a response (at_client.c)

The parser keeps its place in the response buffer and its count of lines from one line to the
next, whatever has become of the command. A command that succeeds finds its lines, all of them and
in order, if they fit, if no command before it has timed out with lines received, and if its
response is not complete before it waits for it (`delivered_along`). -/
namespace ControlRTT.Net.ResponseLines
open ControlRTT.Lib ControlRTT.Lib.CInt ControlRTT.Lib.Runs ControlRTT.Kernel.Thread
open ControlRTT.Net.Client ControlRTT.Net.HandOver

variable {Obj : Type}

/-- The object counts the lines and gives each of them; the last byte of a line is its end. -/
def Delivers (r : AtResponse) (lines : List (List Byte)) : Prop :=
  r.lineCounts = lines.length ∧
    ∀ i (h : i < lines.length), atRespGetLine r (i + 1) = some lines[i].dropLast

/-- A command that returns `RT_EOK` has its lines in its response object. -/
def Delivered (s : AtClient Obj) : Event Obj → Prop
  | .proceed => ∀ c ∈ s.call, c.api = .execCmd → c.phase = .unlock .eok →
      ∀ o ∈ c.resp, Delivers (s.objs o) c.received
  | _ => True

/-- Each line fits the receive buffer and is a string, and all of them fit the response buffer. -/
def Fits (cfg : AtConfig) (bufSize : BitVec 32) (lines : List (List Byte)) : Prop :=
  (∀ line ∈ lines, line.length ≤ cfg.recvBufsz ∧ 0 ∉ line.dropLast) ∧
    (lines.map List.length).sum < bufSize.toNat

/-- The parser has no lines of a response. -/
def Empty (p : AtParser Obj) : Prop := p.respBufLen = 0 ∧ p.lineCounts = 0

/-- A command that gives up leaves no lines with the parser, it supplies its object when no earlier
line is waiting to be looked at, it resets the count of its response before that is complete, and
the lines of a command that returns `RT_EOK` fit. Only commands use the client. -/
def InTurn (cfg : AtConfig) (s : AtClient Obj) : Event Obj → Prop
  | .proceed => ∀ c ∈ s.call,
      (givesUp c = true → s.parser.phase = .reset ∨ Empty s.parser) ∧
        (c.phase = .supply → s.parser.phase ≠ .test) ∧
        (c.phase = .zero → c.completed = false) ∧
        (c.phase = .unlock .eok → ∀ o ∈ c.resp, Fits cfg (s.objs o).bufSize c.received)
  | .waitConnect _ => False
  | _ => True

section
variable [DecidableEq Obj]

instance (r : AtResponse) (lines : List (List Byte)) : Decidable (Delivers r lines) :=
  inferInstanceAs (Decidable (_ ∧ ∀ i, (_ : i < lines.length) → _))

instance (s : AtClient Obj) : DecidablePred (Delivered s)
  | .proceed => inferInstanceAs (Decidable (∀ c ∈ s.call, c.api = .execCmd →
      c.phase = .unlock .eok → ∀ o ∈ c.resp, Delivers (s.objs o) c.received))
  | .byte _ | .parse | .execCmd _ | .waitConnect _ | .timeout | .setResp _ _ => isTrue trivial

instance (cfg : AtConfig) (bufSize : BitVec 32) (lines : List (List Byte)) :
    Decidable (Fits cfg bufSize lines) :=
  inferInstanceAs (Decidable ((∀ line ∈ lines, _) ∧ _))

instance (p : AtParser Obj) : Decidable (Empty p) := inferInstanceAs (Decidable (_ ∧ _))

instance (cfg : AtConfig) (s : AtClient Obj) : DecidablePred (InTurn cfg s)
  | .proceed => inferInstanceAs (Decidable (∀ c ∈ s.call, _ ∧ _ ∧ _ ∧ _))
  | .waitConnect _ => isFalse id
  | .byte _ | .parse | .execCmd _ | .timeout | .setResp _ _ => isTrue trivial

end

/-! ## Lines in a buffer -/

/-- The lines as the parser puts them in a response buffer. -/
def stored (lines : List (List Byte)) : List Byte := CString.strings 0 (lines.map List.dropLast)

theorem stored_concat (lines : List (List Byte)) (line : List Byte) :
    stored (lines ++ [line]) = stored lines ++ (line.dropLast ++ [0]) := by
  unfold stored
  rw [List.map_append]
  exact CString.strings_concat 0 _ _

theorem length_stored {lines : List (List Byte)} (h : ∀ line ∈ lines, line ≠ []) :
    (stored lines).length = (lines.map List.length).sum := by
  unfold stored CString.strings
  rw [List.length_flatMap, List.map_map]
  refine congrArg List.sum (List.map_congr_left fun line hline => ?_)
  have hpos := List.length_pos_iff.mpr (h line hline)
  rw [Function.comp_apply, List.length_append, List.length_singleton, List.length_dropLast,
    Nat.sub_add_cancel hpos]

theorem length_le_sum {lines : List (List Byte)} (h : ∀ line ∈ lines, line ≠ []) :
    lines.length ≤ (lines.map List.length).sum := by
  induction lines with
  | nil => exact Nat.le_refl 0
  | cons line lines ih =>
    have hpos := List.length_pos_iff.mpr (h line List.mem_cons_self)
    have hle := ih fun l hl => h l (List.mem_cons_of_mem _ hl)
    rw [List.length_cons, List.map_cons, List.sum_cons]
    omega

theorem Fits.of_concat {cfg : AtConfig} {bufSize : BitVec 32} {lines : List (List Byte)}
    {line : List Byte} (h : Fits cfg bufSize (lines ++ [line])) : Fits cfg bufSize lines := by
  obtain ⟨hlines, hsum⟩ := h
  rw [List.map_append, List.sum_append] at hsum
  exact ⟨fun l hl => hlines l (List.mem_append_left _ hl), by omega⟩

theorem getLineLoop_strings {texts : List (List Byte)} {buf : List Byte}
    (h : CString.strings 0 texts <+: buf) (htexts : ∀ t ∈ texts, (0 : Byte) ∉ t) (lineNum : Nat)
    {i : Nat} (hi : i < texts.length) :
    getLineLoop (lineNum + i) texts.length lineNum buf = some texts[i] := by
  induction texts generalizing buf lineNum i with
  | nil => exact absurd hi (Nat.not_lt_zero i)
  | cons t texts ih =>
    obtain ⟨htext, hrest⟩ := CString.text_strings h (htexts t List.mem_cons_self)
    rw [List.length_cons, getLineLoop, htext]
    cases i with
    | zero => exact if_pos rfl
    | succ i =>
      rw [if_neg (by omega), List.getElem_cons_succ,
        show lineNum + (i + 1) = lineNum + 1 + i from by omega]
      exact ih hrest (fun t ht => htexts t (List.mem_cons_of_mem _ ht)) (lineNum + 1)
        (Nat.lt_of_succ_lt_succ hi)

/-- The buffer begins with the lines, and their number is there. -/
def Holds (r : AtResponse) (lines : List (List Byte)) : Prop :=
  r.lineCounts = lines.length ∧ stored lines <+: r.buf

theorem Holds.delivers {cfg : AtConfig} {r : AtResponse} {lines : List (List Byte)}
    (h : Holds r lines) (hfits : Fits cfg r.bufSize lines) : Delivers r lines := by
  obtain ⟨hcounts, hbuf⟩ := h
  refine ⟨hcounts, fun i hi => ?_⟩
  unfold atRespGetLine
  rw [if_neg (by omega), hcounts, Nat.add_comm]
  have htexts : ∀ t ∈ lines.map List.dropLast, (0 : Byte) ∉ t := fun t ht => by
    obtain ⟨line, hline, rfl⟩ := List.mem_map.mp ht
    exact (hfits.1 line hline).2
  simpa only [List.length_map, List.getElem_map] using
    getLineLoop_strings hbuf htexts 1 (hi.trans_eq (List.length_map _).symm)

/-! ## The parser at a line -/

/-- The parser is to see whether there is room for a line. -/
def fitting : Phase Obj → Bool
  | .load .bufSize | .use .bufSize _ | .load .buf | .use .buf _ => true
  | _ => false

/-- The parser is to see whether a line was the last one. -/
def checking : Phase Obj → Bool
  | .check | .ended _ => true
  | .load .okLineNum | .load .lineNum | .load .lineNumAgain | .load .lineCounts => true
  | .use .okLineNum _ | .use .lineNum _ | .use .lineNumAgain _ | .use .lineCounts _ => true
  | _ => false

/-- The parser has put the lines in the buffer. -/
structure Counts (p : AtParser Obj) (buf : List Byte) (lines : List (List Byte)) : Prop where
  len : p.respBufLen = (stored lines).length
  count : p.lineCounts = lines.length
  buf : stored lines <+: buf

/-- What the parser has done with the lines that have come, and what it is doing with the last
one. -/
inductive Progress (cfg : AtConfig) (p : AtParser Obj) (buf : List Byte)
    (received : List (List Byte)) : Prop where
  | between (phase : p.phase = .reading) (counts : Counts p buf received)
  | reset (phase : p.phase = .reset) (none : received = [])
  | request (phase : p.phase = .test) (urc : (cfg.getUrcObj p.recvBuffer).isSome = true)
      (counts : Counts p buf received)
  | answer (lines : List (List Byte)) (eq : received = lines ++ [p.recvBuffer])
      (phase : p.phase = .test) (urc : (cfg.getUrcObj p.recvBuffer).isSome = false)
      (counts : Counts p buf lines)
  | fitting (lines : List (List Byte)) (line : List Byte) (eq : received = lines ++ [line])
      (phase : fitting p.phase = true) (buffer : p.recvBuffer = line.dropLast ++ [0])
      (counts : Counts p buf lines)
  | copying (lines : List (List Byte)) (line : List Byte) (eq : received = lines ++ [line])
      (o : Obj) (i : Nat) (phase : p.phase = .copy o i)
      (buffer : p.recvBuffer = line.dropLast ++ [0]) (counts : Counts p buf lines)
      (copied : stored lines ++ p.recvBuffer.take i <+: buf)
  | checking (phase : checking p.phase = true) (counts : Counts p buf received)

section
variable {cfg : AtConfig} {s s' : AtClient Obj} {o : Obj} {lines : List (List Byte)}

theorem Counts.congr {p p' : AtParser Obj} {buf : List Byte} (h : Counts p buf lines)
    (hlen : p'.respBufLen = p.respBufLen) (hcount : p'.lineCounts = p.lineCounts) :
    Counts p' buf lines :=
  ⟨hlen.trans h.len, hcount.trans h.count, h.buf⟩

theorem Counts.checkRest {p : AtParser Obj} {buf : List Byte} (h : Counts p buf lines) :
    Progress cfg p.checkRest buf lines := by
  unfold AtParser.checkRest AtParser.setPhase
  refine .checking ?_ (h.congr rfl rfl)
  dsimp only
  split <;> rfl

variable [DecidableEq Obj]

/-- A line is in the buffer: it is not the last one, or it is to be looked at further, or the
response gets its count. -/
theorem Counts.useResp {u : Use} (h : Counts s.parser (s.objs o).buf lines)
    (hu : ResponseLines.checking (.use u (some o)) = true) :
    Progress cfg (useResp s o u).parser ((useResp s o u).objs o).buf lines ∨
      (useResp s o u).parser.phase = .clear ∧ Holds ((useResp s o u).objs o) lines := by
  cases u with
  | bufSize | buf => cases hu
  | logSize => cases hu
  | okLineNum =>
    unfold Client.useResp
    dsimp only
    split
    · exact .inl (.checking rfl (h.congr rfl rfl))
    · exact .inl h.checkRest
  | lineNum =>
    unfold Client.useResp
    dsimp only
    split
    · exact .inl (.checking rfl (h.congr rfl rfl))
    · exact .inl (.between rfl (h.congr rfl rfl))
  | lineNumAgain =>
    unfold Client.useResp
    dsimp only
    split
    · exact .inl (.checking rfl (h.congr rfl rfl))
    · exact .inl (.between rfl (h.congr rfl rfl))
  | lineCounts =>
    refine .inr ⟨rfl, ?_⟩
    change Holds (Function.update s.objs o _ o) lines
    rw [Function.update_self]
    exact ⟨h.count, h.buf⟩

theorem Counts.parse_checking (h : Counts s.parser (s.objs o).buf lines)
    (hphase : ResponseLines.checking s.parser.phase = true) (hwork : Working o s.parser.phase)
    (hstep : clientParser cfg s = some s') :
    Progress cfg s'.parser (s'.objs o).buf lines ∨
      s'.parser.phase = .clear ∧ Holds (s'.objs o) lines := by
  unfold clientParser at hstep
  cases hp : s.parser.phase with
  | reading | test | copy _ _ | full | clear | release | reset | fault =>
    rw [hp] at hphase
    cases hphase
  | load u =>
    rw [hp] at hstep hphase
    obtain rfl := Option.some.inj hstep
    refine .inl (.checking ?_ (h.congr rfl rfl))
    cases u <;> first | rfl | cases hphase
  | use u resp =>
    rw [hp] at hstep hphase hwork
    obtain rfl : resp = some o := hwork
    obtain rfl := Option.some.inj hstep
    exact h.useResp hphase
  | check =>
    rw [hp] at hstep
    dsimp only at hstep
    split at hstep <;> obtain rfl := Option.some.inj hstep
    · exact .inl (.checking rfl (h.congr rfl rfl))
    · exact .inl h.checkRest
  | ended status =>
    rw [hp] at hstep
    obtain rfl := Option.some.inj hstep
    exact .inl (.checking rfl (h.congr rfl rfl))

/-- The lines in the buffer and one more, which fits. -/
theorem Fits.room {r : AtResponse} {line : List Byte} (h : Fits cfg r.bufSize (lines ++ [line]))
    (hne : ∀ l ∈ lines ++ [line], l ≠ []) :
    (stored lines).length + line.length < r.bufSize.toNat ∧
      line.dropLast.length + 1 = line.length := by
  have hsum := h.2
  have hstored := length_stored fun l hl => hne l (List.mem_append_left [line] hl)
  rw [List.map_append, List.sum_append, ← hstored] at hsum
  have hpos := List.length_pos_iff.mpr (hne line (List.mem_append_right _ List.mem_cons_self))
  rw [List.length_dropLast, Nat.sub_add_cancel hpos]
  refine ⟨by simpa using hsum, rfl⟩

/-- There is room for a line. -/
theorem Counts.parse_fitting {line : List Byte} (h : Counts s.parser (s.objs o).buf lines)
    (hphase : ResponseLines.fitting s.parser.phase = true)
    (hbuffer : s.parser.recvBuffer = line.dropLast ++ [0])
    (hne : ∀ l ∈ lines ++ [line], l ≠ []) (hfits : Fits cfg (s.objs o).bufSize (lines ++ [line]))
    (hwork : Working o s.parser.phase) (hstep : clientParser cfg s = some s') :
    Progress cfg s'.parser (s'.objs o).buf (lines ++ [line]) := by
  unfold clientParser at hstep
  cases hp : s.parser.phase with
  | reading | test | copy _ _ | full | check | ended _ | clear | release | reset | fault =>
    rw [hp] at hphase
    cases hphase
  | load u =>
    rw [hp] at hstep hphase
    obtain rfl := Option.some.inj hstep
    refine .fitting lines line rfl ?_ hbuffer (h.congr rfl rfl)
    cases u <;> first | rfl | cases hphase
  | use u resp =>
    rw [hp] at hstep hphase hwork
    obtain rfl : resp = some o := hwork
    obtain rfl := Option.some.inj hstep
    cases u with
    | okLineNum | lineNum | lineNumAgain => cases hphase
    | logSize | lineCounts => cases hphase
    | buf =>
      refine .copying lines line rfl o 0 rfl hbuffer (h.congr rfl rfl) ?_
      rw [List.take_zero, List.append_nil]
      exact h.buf
    | bufSize =>
      obtain ⟨hroom, hlen⟩ := hfits.room hne
      have hsum : s.parser.respBufLen + s.parser.recvBuffer.length < (s.objs o).bufSize.toNat := by
        rw [h.len, hbuffer, List.length_append, List.length_singleton, hlen]
        exact hroom
      unfold Client.useResp
      dsimp only
      rw [u32_of_lt (hsum.trans (s.objs o).bufSize.isLt), if_pos hsum]
      exact .fitting lines line rfl rfl hbuffer (h.congr rfl rfl)

theorem Counts.parse_copying {line : List Byte} {i : Nat}
    (h : Counts s.parser (s.objs o).buf lines) (hphase : s.parser.phase = .copy o i)
    (hbuffer : s.parser.recvBuffer = line.dropLast ++ [0])
    (hcopied : stored lines ++ s.parser.recvBuffer.take i <+: (s.objs o).buf)
    (hne : ∀ l ∈ lines ++ [line], l ≠ []) (hfits : Fits cfg (s.objs o).bufSize (lines ++ [line]))
    (hstep : clientParser cfg s = some s') :
    Progress cfg s'.parser (s'.objs o).buf (lines ++ [line]) := by
  obtain ⟨hroom, hlen⟩ := hfits.room hne
  have hlength : s.parser.recvBuffer.length = line.length := by
    rw [hbuffer, List.length_append, List.length_singleton, hlen]
  unfold clientParser at hstep
  rw [hphase] at hstep
  dsimp only at hstep
  split at hstep <;> obtain rfl := Option.some.inj hstep
  · rename_i b hb
    obtain ⟨hi, -⟩ := List.getElem?_eq_some_iff.mp hb
    have hoffset : s.parser.respBufLen + i =
        (stored lines ++ s.parser.recvBuffer.take i).length := by
      rw [List.length_append, List.length_take_of_le hi.le, h.len]
    have hcopied' : stored lines ++ s.parser.recvBuffer.take (i + 1) <+:
        (s.objs o).buf.set (s.parser.respBufLen + i) b := by
      rw [List.take_add_one, hb, Option.toList_some, ← List.append_assoc, hoffset]
      refine CString.concat_prefix_set hcopied ?_ b
      rw [← hoffset, (s.objs o).sized, h.len]
      omega
    have hobj : ((s.setObj o ((s.objs o).put (s.parser.respBufLen + i) b)).objs o).buf =
        (s.objs o).buf.set (s.parser.respBufLen + i) b :=
      congrArg AtResponse.buf (Function.update_self o _ s.objs)
    refine .copying lines line rfl o (i + 1) rfl hbuffer ?_ ?_
    · refine ⟨h.len, h.count, ?_⟩
      change stored lines <+: ((s.setObj o _).objs o).buf
      rw [hobj]
      exact (List.prefix_append _ _).trans hcopied'
    · change _ <+: ((s.setObj o _).objs o).buf
      rw [hobj]
      exact hcopied'
  · rename_i hend
    have hall : s.parser.recvBuffer.take i = s.parser.recvBuffer :=
      List.take_of_length_le (List.getElem?_eq_none_iff.mp hend)
    have hbound := (s.objs o).bufSize.isLt
    have hcount := length_le_sum hne
    have hsum := hfits.2
    rw [List.length_append, List.length_singleton] at hcount
    refine .checking rfl ⟨?_, ?_, ?_⟩
    · change u32 _ = _
      rw [hlength, h.len, u32_of_lt (by omega), stored_concat, List.length_append,
        List.length_append, List.length_singleton, hlen]
    · change u32 _ = _
      rw [h.count, u32_of_lt (by omega), List.length_append, List.length_singleton]
    · rw [stored_concat, ← hbuffer, ← hall]
      exact hcopied

/-- What a step of the parser does with the lines of a response that is not complete. -/
theorem Progress.parse (h : Progress cfg s.parser (s.objs o).buf lines)
    (hne : ∀ l ∈ lines, l ≠ []) (hfits : Fits cfg (s.objs o).bufSize lines)
    (hresp : s.resp = some o) (hwork : Working o s.parser.phase)
    (hstep : clientParser cfg s = some s') :
    Progress cfg s'.parser (s'.objs o).buf lines ∨
      s'.parser.phase = .clear ∧ Holds (s'.objs o) lines := by
  cases h with
  | between phase counts =>
    unfold clientParser at hstep
    rw [phase] at hstep
    cases hstep
  | reset phase none =>
    unfold clientParser at hstep
    rw [phase] at hstep
    obtain rfl := Option.some.inj hstep
    subst none
    exact .inl (.between rfl ⟨rfl, rfl, List.nil_prefix⟩)
  | request phase urc counts =>
    unfold clientParser at hstep
    rw [phase] at hstep
    dsimp only at hstep
    rw [if_pos (.inl urc)] at hstep
    obtain rfl := Option.some.inj hstep
    exact .inl (.between rfl (counts.congr rfl rfl))
  | answer earlier eq phase urc counts =>
    unfold clientParser at hstep
    rw [phase] at hstep
    dsimp only at hstep
    rw [urc, if_neg (by rw [hresp]; nofun)] at hstep
    obtain rfl := Option.some.inj hstep
    exact .inl (.fitting earlier _ eq rfl rfl (counts.congr rfl rfl))
  | fitting earlier line eq phase buffer counts =>
    subst eq
    exact .inl (counts.parse_fitting phase buffer hne hfits hwork hstep)
  | copying earlier line eq o' i phase buffer counts copied =>
    subst eq
    rw [phase] at hwork
    obtain rfl : o' = o := hwork
    exact .inl (counts.parse_copying phase buffer copied hne hfits hstep)
  | checking phase counts => exact counts.parse_checking phase hwork hstep

end

/-! ## The invariant -/

/-- The receive buffer has the line as far as it has come, or the line does not fit. -/
def Reader (cfg : AtConfig) (p : AtParser Obj) : Prop :=
  p.isFull = false ∧ p.recvBuffer = p.raw ∨ p.isFull = true ∧ cfg.recvBufsz < p.raw.length

/-- While a response is not complete the parser has its lines, then the object has them. -/
structure CallLines (cfg : AtConfig) (s : AtClient Obj) (c : Call Obj) : Prop where
  api : c.api = .execCmd
  early : early c = true → c.received = []
  nonempty : ∀ line ∈ c.received, line ≠ []
  pending : ∀ o, c.resp = some o → s.resp = some o → c.completed = false →
    Fits cfg (s.objs o).bufSize c.received → Progress cfg s.parser (s.objs o).buf c.received
  done : ∀ o, c.resp = some o → c.completed = true →
    Fits cfg (s.objs o).bufSize c.received → Holds (s.objs o) c.received

structure Lines (cfg : AtConfig) (s : AtClient Obj) : Prop where
  reader : s.parser.phase = .reading → Reader cfg s.parser
  empty : s.resp = none →
    s.parser.phase = .release ∨ s.parser.phase = .reset ∨ Empty s.parser
  calls : ∀ c ∈ s.call, CallLines cfg s c

section
variable {cfg : AtConfig} {s s' : AtClient Obj} {c c' : Call Obj} {o : Obj}

theorem CallLines.congr (h : CallLines cfg s c) (hresp : s'.resp = s.resp)
    (hparser : s'.parser = s.parser) (hobjs : ∀ o, c.resp = some o → s'.objs o = s.objs o)
    (hc : c' = { c with phase := c'.phase }) (hearly : HandOver.early c' = true →
      HandOver.early c = true) : CallLines cfg s' c' := by
  rw [hc] at hearly ⊢
  refine ⟨h.api, fun he => h.early (hearly he), h.nonempty, fun o ho hs hfresh hfits => ?_,
    fun o ho hdone hfits => ?_⟩
  · rw [hobjs o ho] at hfits ⊢
    rw [hparser]
    exact h.pending o ho (hresp ▸ hs) hfresh hfits
  · rw [hobjs o ho] at hfits ⊢
    exact h.done o ho hdone hfits

/-- The object that a command has given the client. -/
theorem stage_of_found (h : HandOver.Inv s) (hcall : s.call = some c) (hapi : c.api = .execCmd)
    (hresp : s.resp = some o) : kind c = .waiting ∧ c.resp = some o ∧ Stage s o c.completed := by
  obtain hquiet | ⟨c', hc', hkind, -⟩ | ⟨c', o', hc', hkind, ho', hstage⟩ := h.cases
  · cases hquiet.resp.symm.trans hresp
  · obtain rfl := Option.some.inj (hcall.symm.trans hc')
    have hdeleted := deleted_of_kind hkind
    unfold deleted at hdeleted
    rw [hapi] at hdeleted
    cases hdeleted
  · obtain rfl := Option.some.inj (hcall.symm.trans hc')
    have heq : s.resp = some o' := by
      generalize c.completed = b at hstage
      cases hstage with
      | opened resp | stored resp => exact resp
      | cleared resp | noticed resp => cases resp.symm.trans hresp
    obtain rfl := Option.some.inj (heq.symm.trans hresp)
    exact ⟨hkind, ho', hstage⟩

theorem early_of_kind (h : kind c = .waiting) : HandOver.early c = false := by
  obtain ⟨api, resp, phase, completed, received⟩ := c
  cases phase with
  | start | supply => cases h
  | loop | zero | write | take | check | timedOut | delete _ | clear _ | unlock _ => rfl

/-! ### A byte -/

theorem Reader.store {p : AtParser Obj} (h : Reader cfg p) (ch : Byte) :
    Reader cfg (p.store cfg ch) := by
  have hraw : (p.raw ++ [ch]).length = p.raw.length + 1 := List.length_append
  unfold AtParser.store
  dsimp only
  split
  · obtain ⟨hroom, heq⟩ | ⟨hfull, hlong⟩ := h
    · exact .inl ⟨hroom, congrArg (· ++ [ch]) heq⟩
    · exact .inr ⟨hfull, by dsimp only; omega⟩
  · obtain ⟨-, heq⟩ | ⟨-, hlong⟩ := h
    · exact .inr ⟨rfl, by rw [← heq] at hraw ⊢; dsimp only; omega⟩
    · exact .inr ⟨rfl, by dsimp only; omega⟩

theorem store_frame (cfg : AtConfig) (p : AtParser Obj) (ch : Byte) :
    (p.store cfg ch).phase = p.phase ∧
    (p.store cfg ch).respBufLen = p.respBufLen ∧ (p.store cfg ch).lineCounts = p.lineCounts ∧
      (p.store cfg ch).raw = p.raw ++ [ch] := by
  unfold AtParser.store
  dsimp only
  split <;> exact ⟨rfl, rfl, rfl, rfl⟩

theorem Progress.reading {p : AtParser Obj} {buf : List Byte} {lines : List (List Byte)}
    (h : Progress cfg p buf lines) (hphase : p.phase = .reading) : Counts p buf lines := by
  cases h with
  | between phase counts => exact counts
  | reset phase => cases hphase.symm.trans phase
  | request phase => cases hphase.symm.trans phase
  | answer _ _ phase => cases hphase.symm.trans phase
  | fitting _ _ _ phase => rw [hphase] at phase; cases phase
  | copying _ _ _ _ _ phase => cases hphase.symm.trans phase
  | checking phase => rw [hphase] at phase; cases phase

theorem Progress.ne_clear {p : AtParser Obj} {buf : List Byte} {lines : List (List Byte)}
    (h : Progress cfg p buf lines) : p.phase ≠ .clear := fun hclear => by
  cases h with
  | between phase | reset phase | request phase => cases hclear.symm.trans phase
  | answer _ _ phase => cases hclear.symm.trans phase
  | fitting _ _ _ phase => rw [hclear] at phase; cases phase
  | copying _ _ _ _ _ phase => cases hclear.symm.trans phase
  | checking phase => rw [hclear] at phase; cases phase

theorem Lines.empty_of_reading (h : Lines cfg s) (hreading : s.parser.phase = .reading)
    (hnone : s.resp = none) : Empty s.parser := by
  rcases h.empty hnone with hp | hp | hempty
  · cases hreading.symm.trans hp
  · cases hreading.symm.trans hp
  · exact hempty

/-- The parser reads on. -/
theorem Lines.read {p : AtParser Obj} (h : Lines cfg s) (hreading : s.parser.phase = .reading)
    (hlen : p.respBufLen = s.parser.respBufLen) (hcount : p.lineCounts = s.parser.lineCounts)
    (hreader : p.phase = .reading → Reader cfg p) (hprogress : s.resp ≠ none → ∀ buf lines,
      Counts s.parser buf lines → Progress cfg p buf lines) : Lines cfg (s.setParser p) where
  reader := hreader
  empty hnone := by
    obtain ⟨h₁, h₂⟩ := h.empty_of_reading hreading hnone
    exact .inr (.inr ⟨hlen.trans h₁, hcount.trans h₂⟩)
  calls c hc := by
    have hcall := h.calls c hc
    refine ⟨hcall.api, hcall.early, hcall.nonempty, fun o ho hs hfresh hfits => ?_, hcall.done⟩
    have hresp : s.resp ≠ none := Option.ne_none_iff_exists'.mpr ⟨o, hs⟩
    refine hprogress hresp _ _ ?_
    exact (hcall.pending o ho hs hfresh hfits).reading hreading

/-- A line has come for the call. -/
theorem CallLines.noted {p : AtParser Obj} {line : List Byte} (h : CallLines cfg s c)
    (hand : HandOver.Inv s) (hcall : s.call = some c) (hreading : s.parser.phase = .reading)
    (hline : line ≠ []) (hresp : s.resp ≠ none)
    (hprogress : ∀ o, Fits cfg (s.objs o).bufSize (c.received ++ [line]) →
      Progress cfg s.parser (s.objs o).buf c.received →
      Progress cfg p (s.objs o).buf (c.received ++ [line])) :
    CallLines cfg (s.setParser p) { c with received := c.received ++ [line] } := by
  obtain ⟨o, ho⟩ := Option.ne_none_iff_exists'.mp hresp
  obtain ⟨hkind, -, hstage⟩ := stage_of_found hand hcall h.api ho
  have hfresh : c.completed = false := by
    generalize c.completed = b at hstage
    cases hstage with
    | opened => rfl
    | stored _ _ phase | cleared _ _ phase => cases hreading.symm.trans phase
    | noticed none => exact absurd none hresp
  refine ⟨h.api, fun he => ?_, fun l hl => ?_, fun o' ho' hs _ hfits => ?_, fun o' _ hdone => ?_⟩
  · cases (early_of_kind hkind).symm.trans he
  · rcases List.mem_append.mp hl with hl | hl
    · exact h.nonempty l hl
    · rw [List.mem_singleton.mp hl]
      exact hline
  · exact hprogress o' hfits (h.pending o' ho' hs hfresh hfits.of_concat)
  · cases hfresh.symm.trans hdone

/-- The parser has read a line that is no request. -/
theorem Lines.readLine {p : AtParser Obj} {line : List Byte} (h : Lines cfg s)
    (hand : HandOver.Inv s) (hreading : s.parser.phase = .reading) (hline : line ≠ [])
    (hlen : p.respBufLen = s.parser.respBufLen) (hcount : p.lineCounts = s.parser.lineCounts)
    (hreader : p.phase = .reading → Reader cfg p)
    (hprogress : ∀ bufSize buf lines, Fits cfg bufSize (lines ++ [line]) →
      Counts s.parser buf lines → Progress cfg p buf (lines ++ [line])) :
    Lines cfg ((s.noteLine line).setParser p) := by
  unfold AtClient.noteLine
  split
  · rename_i hnone
    exact h.read hreading hlen hcount hreader (absurd hnone)
  · rename_i hresp
    refine ⟨hreader, fun hnone => absurd hnone hresp, fun c hc => ?_⟩
    obtain ⟨c', hc', rfl⟩ := Option.map_eq_some_iff.mp hc
    obtain ⟨hapi, hearly, hnonempty, hpending, hdone⟩ :=
      (h.calls c' hc').noted hand hc' hreading hline hresp fun o hfits hprog =>
        hprogress _ _ _ hfits (hprog.reading hreading)
    exact ⟨hapi, hearly, hnonempty, hpending, hdone⟩

theorem Lines.byte (h : Lines cfg s) (hand : HandOver.Inv s)
    (hreading : s.parser.phase = .reading) (ch : Byte) : Lines cfg (atRecvReadline cfg s ch) := by
  have hreader := (h.reader hreading).store ch
  obtain ⟨hphase, hlen, hcount, hraw⟩ := store_frame cfg s.parser ch
  have hne : (s.parser.store cfg ch).raw ≠ [] := by
    rw [hraw]
    exact List.concat_ne_nil _ _
  unfold atRecvReadline
  dsimp only
  split
  · split
    · rename_i hfull
      refine h.readLine hand hreading hne hlen hcount (fun _ => .inl ⟨rfl, rfl⟩)
        fun _ _ lines hfits _ => ?_
      obtain ⟨hroom, -⟩ | ⟨-, hlong⟩ := hreader
      · cases hroom.symm.trans hfull
      · have hle := (hfits.1 _ (List.mem_append_right lines List.mem_cons_self)).1
        omega
    · rename_i hroom
      split
      · rename_i hurc
        exact h.read hreading hlen hcount nofun fun _ _ _ hcounts =>
          .request rfl hurc (hcounts.congr hlen hcount)
      · rename_i hurc
        refine h.readLine hand hreading hne hlen hcount nofun fun _ _ lines _ hcounts => ?_
        obtain ⟨-, heq⟩ | ⟨hfull, -⟩ := hreader
        · exact .answer lines (heq ▸ rfl) rfl (Bool.eq_false_of_not_eq_true hurc)
            (hcounts.congr hlen hcount)
        · exact absurd hfull hroom
  · exact h.read hreading hlen hcount (fun _ => hreader) fun _ _ _ hcounts =>
      .between (hphase.trans hreading) (hcounts.congr hlen hcount)

/-! ### A step that leaves the lines alone -/

/-- A step that only takes the call further. -/
theorem Lines.callTo {phase : CallPhase} (h : Lines cfg s) (hcall : s.call = some c)
    (hresp : s'.resp = s.resp) (hparser : s'.parser = s.parser)
    (hobjs : ∀ o, c.resp = some o → s'.objs o = s.objs o)
    (hcall' : s'.call = some { c with phase := phase })
    (hearly : HandOver.early { c with phase := phase } = true → HandOver.early c = true) :
    Lines cfg s' where
  reader := by
    rw [hparser]
    exact h.reader
  empty := by
    rw [hparser, hresp]
    exact h.empty
  calls c' hc' := by
    obtain rfl := Option.some.inj (hcall'.symm.trans hc')
    exact (h.calls c hcall).congr hresp hparser hobjs rfl hearly

theorem Lines.timeOut (h : Lines cfg s) (hcall : s.call = some c)
    (hstep : timeOut s c = some s') : Lines cfg s' := by
  have hapi := (h.calls c hcall).api
  unfold Client.timeOut at hstep
  rw [hapi] at hstep
  split at hstep
  · obtain ⟨-, heq⟩ := Option.ite_none_right_eq_some.mp hstep
    obtain rfl := Option.some.inj heq
    exact h.callTo hcall rfl rfl (fun _ _ => rfl) rfl nofun
  · rename_i hwait _
    cases hwait
  · rename_i hwait _
    cases hwait
  · cases hstep

/-! ### The property -/

theorem Lines.delivered {e : Event Obj} (h : Lines cfg s) (hand : HandOver.Inv s)
    (hturn : InTurn cfg s e) : Delivered s e := by
  cases e with
  | proceed =>
    intro c hcall hapi hphase o ho
    obtain ⟨-, -, -, hfits⟩ := hturn c hcall
    have hcompleted := hand.handedOver .proceed c hcall hapi hphase
      (Option.ne_none_iff_exists'.mpr ⟨o, ho⟩)
    exact ((h.calls c hcall).done o ho hcompleted (hfits hphase o ho)).delivers (hfits hphase o ho)
  | byte _ | parse | execCmd _ | waitConnect _ | timeout | setResp _ _ => trivial

/-! ### A step of the parser -/

theorem reader_readline (p : AtParser Obj) : Reader cfg p.readline := .inl ⟨rfl, rfl⟩

theorem checkRest_ne_reading (p : AtParser Obj) : p.checkRest.phase ≠ .reading := by
  unfold AtParser.checkRest AtParser.setPhase
  dsimp only
  split <;> nofun

variable [DecidableEq Obj]

theorem useResp_reader {u : Use} (h : (useResp s o u).parser.phase = .reading) :
    Reader cfg (useResp s o u).parser := by
  cases u with
  | buf | logSize | lineCounts => cases h
  | bufSize =>
    unfold useResp at h
    dsimp only at h
    split at h <;> cases h
  | okLineNum =>
    unfold useResp at h
    dsimp only at h
    split at h
    · cases h
    · exact absurd h (checkRest_ne_reading _)
  | lineNum | lineNumAgain =>
    unfold useResp at h ⊢
    dsimp only at h ⊢
    split at h
    · cases h
    · rename_i hne
      rw [if_neg hne]
      exact reader_readline _

theorem clientParser_reader (hstep : clientParser cfg s = some s')
    (h : s'.parser.phase = .reading) : Reader cfg s'.parser := by
  unfold clientParser at hstep
  split at hstep
  · cases hstep
  · split at hstep <;> obtain rfl := Option.some.inj hstep
    · exact reader_readline _
    · cases h
  · obtain rfl := Option.some.inj hstep
    cases h
  · obtain rfl := Option.some.inj hstep
    cases h
  · obtain rfl := Option.some.inj hstep
    exact useResp_reader h
  · split at hstep <;> obtain rfl := Option.some.inj hstep <;> cases h
  · obtain rfl := Option.some.inj hstep
    cases h
  · split at hstep <;> obtain rfl := Option.some.inj hstep
    · cases h
    · exact absurd h (checkRest_ne_reading _)
  · obtain rfl := Option.some.inj hstep
    cases h
  · obtain rfl := Option.some.inj hstep
    cases h
  · obtain rfl := Option.some.inj hstep
    cases h
  · obtain rfl := Option.some.inj hstep
    exact reader_readline _
  · cases hstep

/-- The sizes of the buffers stay. -/
theorem clientParser_bufSize (hstep : clientParser cfg s = some s') (o : Obj) :
    (s'.objs o).bufSize = (s.objs o).bufSize := by
  have hset : ∀ (o' : Obj) (r : AtResponse), r.bufSize = (s.objs o').bufSize →
      (Function.update s.objs o' r o).bufSize = (s.objs o).bufSize := fun o' r hr => by
    by_cases heq : o = o'
    · subst heq
      rw [Function.update_self, hr]
    · rw [Function.update_of_ne heq]
  unfold clientParser at hstep
  split at hstep
  · cases hstep
  · split at hstep <;> obtain rfl := Option.some.inj hstep <;> rfl
  · obtain rfl := Option.some.inj hstep
    rfl
  · obtain rfl := Option.some.inj hstep
    rfl
  · rename_i u o' _
    obtain rfl := Option.some.inj hstep
    cases u with
    | lineCounts => exact hset o' _ rfl
    | buf | logSize => rfl
    | bufSize | okLineNum | lineNum | lineNumAgain =>
      unfold useResp
      dsimp only
      split <;> rfl
  · split at hstep <;> obtain rfl := Option.some.inj hstep
    · exact hset _ _ rfl
    · rfl
  · obtain rfl := Option.some.inj hstep
    rfl
  · split at hstep <;> obtain rfl := Option.some.inj hstep <;> rfl
  · obtain rfl := Option.some.inj hstep
    rfl
  · obtain rfl := Option.some.inj hstep
    rfl
  · obtain rfl := Option.some.inj hstep
    rfl
  · obtain rfl := Option.some.inj hstep
    rfl
  · cases hstep

/-- The client has no object: the parser only gets over what it has done. -/
theorem clientParser_none (hand : HandOver.Inv s) (hnone : s.resp = none)
    (hstep : clientParser cfg s = some s') : s'.resp = none ∧ s'.objs = s.objs ∧ s'.call = s.call ∧
      (s'.parser.phase = .reset ∨ Empty s'.parser ∨
        s'.parser.respBufLen = s.parser.respBufLen ∧ s'.parser.lineCounts = s.parser.lineCounts ∧
          s.parser.phase = .test) := by
  by_cases hrest : AtRest s.parser.phase
  · unfold clientParser at hstep
    obtain hphase | hphase | hphase := hrest <;> rw [hphase] at hstep
    · cases hstep
    · dsimp only at hstep
      rw [if_pos (.inr hnone)] at hstep
      obtain rfl := Option.some.inj hstep
      exact ⟨hnone, rfl, rfl, .inr (.inr ⟨rfl, rfl, hphase⟩)⟩
    · obtain rfl := Option.some.inj hstep
      exact ⟨hnone, rfl, rfl, .inr (.inl ⟨rfl, rfl⟩)⟩
  · obtain ⟨c, o, -, -, -, hstage⟩ := hand.waiting hrest
    generalize c.completed = b at hstage
    cases hstage with
    | opened resp | stored resp => cases hnone.symm.trans resp
    | noticed _ _ rest => exact absurd rest hrest
    | cleared _ _ phase =>
      unfold clientParser at hstep
      rw [phase] at hstep
      obtain rfl := Option.some.inj hstep
      exact ⟨hnone, rfl, rfl, .inl rfl⟩

theorem Lines.parse (h : Lines cfg s) (hand : HandOver.Inv s)
    (hstep : clientParser cfg s = some s') : Lines cfg s' := by
  cases hresp : s.resp with
  | none =>
    obtain ⟨hnone, hobjs, hcall, hparser⟩ := clientParser_none hand hresp hstep
    refine ⟨clientParser_reader hstep, fun _ => ?_, fun c hc => ?_⟩
    · obtain hp | hp | ⟨hlen, hcount, hp⟩ := hparser
      · exact .inr (.inl hp)
      · exact .inr (.inr hp)
      · obtain hq | hq | ⟨h₁, h₂⟩ := h.empty hresp
        · cases hp.symm.trans hq
        · cases hp.symm.trans hq
        · exact .inr (.inr ⟨hlen.trans h₁, hcount.trans h₂⟩)
    · have hlines := h.calls c (hcall ▸ hc)
      refine ⟨hlines.api, hlines.early, hlines.nonempty, fun o _ hs => ?_, ?_⟩
      · cases hnone.symm.trans hs
      · rw [hobjs]
        exact hlines.done
  | some o =>
    cases hcall : s.call with
    | none => cases (hand.noCall hcall).resp.symm.trans hresp
    | some c =>
      have hlines := h.calls c hcall
      obtain ⟨hkind, ho, hstage⟩ := stage_of_found hand hcall hlines.api hresp
      have hsize := clientParser_bufSize hstep o
      generalize hb : c.completed = b at hstage
      cases hstage with
      | opened _ _ work =>
        have hprogress : Fits cfg (s.objs o).bufSize c.received →
            Progress cfg s'.parser (s'.objs o).buf c.received ∨
              s'.parser.phase = .clear ∧ Holds (s'.objs o) c.received := fun hfits =>
          (hlines.pending o ho hresp hb hfits).parse hlines.nonempty hfits hresp work hstep
        obtain ⟨hresp', -, ⟨hcall', hwork⟩ | ⟨hcall', hclear⟩⟩ :=
          clientParser_opened hresp work hstep
        · refine ⟨clientParser_reader hstep, fun hnone => ?_, fun c' hc' => ?_⟩
          · cases hnone.symm.trans (hresp'.trans hresp)
          · obtain rfl := Option.some.inj (hcall.symm.trans (hcall'.symm.trans hc'))
            refine ⟨hlines.api, hlines.early, hlines.nonempty, fun o' ho' _ _ hfits => ?_,
              fun _ _ hdone => nomatch hb.symm.trans hdone⟩
            obtain rfl := Option.some.inj (ho.symm.trans ho')
            obtain hprog | ⟨hclear, -⟩ := hprogress (hsize ▸ hfits)
            · exact hprog
            · rw [hclear] at hwork
              exact hwork.elim
        · refine ⟨clientParser_reader hstep, fun hnone => ?_, fun c' hc' => ?_⟩
          · cases hnone.symm.trans (hresp'.trans hresp)
          · have hdone : (s.noteCompleted o).call = some { c with completed := true } := by
              unfold AtClient.noteCompleted
              dsimp only
              rw [hcall, Option.map_some, if_pos ho]
            obtain rfl := Option.some.inj (hdone.symm.trans (hcall'.symm.trans hc'))
            refine ⟨hlines.api, hlines.early, hlines.nonempty, fun _ _ _ hfresh => (nomatch hfresh),
              fun o' ho' _ hfits => ?_⟩
            obtain rfl := Option.some.inj (ho.symm.trans ho')
            obtain hprog | ⟨-, hholds⟩ := hprogress (hsize ▸ hfits)
            · exact absurd hclear hprog.ne_clear
            · exact hholds
      | stored _ _ phase =>
        unfold clientParser at hstep
        rw [phase] at hstep
        obtain rfl := Option.some.inj hstep
        refine ⟨nofun, fun _ => .inl rfl, fun c' hc' => ?_⟩
        obtain ⟨hapi, hearly, hnonempty, -, hdone⟩ := h.calls c' hc'
        exact ⟨hapi, hearly, hnonempty, fun _ _ hs => (nomatch hs), hdone⟩
      | cleared none | noticed none => cases none.symm.trans hresp

/-! ### A step of a call -/

theorem Lines.execCmd (h : Lines cfg s) (hand : HandOver.Inv s) (hcall : s.call = some c)
    (hturn : InTurn cfg s .proceed) (hstep : atObjExecCmd s c = some s') : Lines cfg s' := by
  obtain ⟨hgive, hsupply, hzero, -⟩ := hturn c hcall
  have hlines := h.calls c hcall
  obtain ⟨api, resp, phase, completed, received⟩ := c
  unfold atObjExecCmd at hstep
  dsimp only at hstep
  split at hstep
  · obtain rfl := Option.some.inj hstep
    exact h.callTo hcall rfl rfl (fun _ _ => rfl) rfl fun _ => rfl
  · obtain rfl := Option.some.inj hstep
    obtain ⟨hquiet, hfresh, -⟩ := hand.ofCall hcall
    have hempty := h.empty hquiet.resp
    refine ⟨h.reader, fun _ => hempty, fun c' hc' => ?_⟩
    obtain rfl := Option.some.inj hc'
    obtain rfl : received = [] := hlines.early rfl
    refine ⟨hlines.api, nofun, hlines.nonempty, fun o _ _ _ _ => ?_, fun _ _ hdone => ?_⟩
    · obtain hp | hp | hp := hquiet.rest
      · obtain hq | hq | ⟨hlen, hcount⟩ := hempty
        · cases hp.symm.trans hq
        · cases hp.symm.trans hq
        · exact .between hp ⟨hlen, hcount, List.nil_prefix⟩
      · exact absurd hp (hsupply rfl)
      · exact .reset hp rfl
    · cases hfresh.symm.trans hdone
  · obtain rfl := Option.some.inj hstep
    exact h.callTo hcall rfl rfl (fun _ _ => rfl) rfl nofun
  · obtain rfl := Option.some.inj hstep
    exact h.callTo hcall rfl rfl (fun _ _ => rfl) rfl nofun
  · rename_i o
    obtain rfl := Option.some.inj hstep
    have hobj : (s.setObj o ((s.objs o).setLineCounts 0)).objs o = (s.objs o).setLineCounts 0 :=
      Function.update_self o _ s.objs
    refine ⟨h.reader, h.empty, fun c' hc' => ?_⟩
    obtain rfl := Option.some.inj hc'
    refine ⟨hlines.api, nofun, hlines.nonempty, fun o' ho' hs hfresh hfits => ?_,
      fun _ _ hdone => ?_⟩
    · obtain rfl := Option.some.inj ho'
      change Fits cfg ((s.setObj o _).objs o).bufSize _ at hfits
      change Progress cfg s.parser ((s.setObj o _).objs o).buf _
      rw [hobj] at hfits ⊢
      exact hlines.pending o rfl hs hfresh hfits
    · cases (hzero rfl).symm.trans hdone
  · split at hstep
    · cases hstep
    · obtain rfl := Option.some.inj hstep
      exact h.callTo hcall rfl rfl (fun _ _ => rfl) rfl nofun
  · obtain rfl := Option.some.inj hstep
    exact h.callTo hcall rfl rfl (fun _ _ => rfl) rfl nofun
  · obtain rfl := Option.some.inj hstep
    exact h.callTo hcall rfl rfl (fun _ _ => rfl) rfl nofun
  · obtain ⟨r, hphase, rfl⟩ | ⟨-, rfl⟩ := exit_cases hstep
    · obtain rfl : phase = .clear r := hphase
      refine ⟨h.reader, fun _ => ?_, fun c' hc' => ?_⟩
      · cases r with
        | etimeout => exact .inr (hgive (by rw [show api = .execCmd from hlines.api]; rfl))
        | eok | error =>
          refine h.empty ?_
          obtain rfl : api = .execCmd := hlines.api
          exact (hand.ofCall hcall).1.resp
      · obtain rfl := Option.some.inj hc'
        exact ⟨hlines.api, nofun, hlines.nonempty, fun _ _ hs => (nomatch hs), hlines.done⟩
    · exact ⟨h.reader, h.empty, nofun⟩

theorem Lines.step {e : Event Obj} (h : Lines cfg s) (hand : HandOver.Inv s)
    (hturn : InTurn cfg s e) (hstep : step cfg s e = some s') : Lines cfg s' := by
  cases e with
  | byte ch =>
    obtain ⟨hreading, heq⟩ := Option.ite_none_right_eq_some.mp hstep
    obtain rfl := Option.some.inj heq
    exact h.byte hand hreading ch
  | parse => exact h.parse hand hstep
  | execCmd resp =>
    obtain ⟨hnone, heq⟩ := Option.ite_none_right_eq_some.mp hstep
    obtain rfl := Option.some.inj heq
    refine ⟨h.reader, h.empty, fun c hc => ?_⟩
    obtain rfl := Option.some.inj hc
    refine ⟨rfl, fun _ => rfl, nofun, fun o _ hs => ?_, nofun⟩
    cases (hand.noCall hnone).resp.symm.trans hs
  | waitConnect resp => exact hturn.elim
  | proceed =>
    obtain ⟨c, hcall, hproceed⟩ := Option.bind_eq_some_iff.mp hstep
    unfold proceed at hproceed
    rw [(h.calls c hcall).api] at hproceed
    exact h.execCmd hand hcall hturn hproceed
  | timeout =>
    obtain ⟨c, hcall, htime⟩ := Option.bind_eq_some_iff.mp hstep
    exact h.timeOut hcall htime
  | setResp o r =>
    obtain ⟨hother, heq⟩ := Option.ite_none_right_eq_some.mp hstep
    obtain rfl := Option.some.inj heq
    refine ⟨h.reader, h.empty, fun c hc => ?_⟩
    refine (h.calls c hc).congr rfl rfl (fun o' ho' => ?_) rfl id
    refine Function.update_of_ne ?_ _ _
    rintro rfl
    exact hother c hc ho'

end

theorem lines_start (cfg : AtConfig) (objs : Obj → AtResponse) : Lines cfg (start objs) :=
  ⟨fun _ => .inl ⟨rfl, rfl⟩, fun _ => .inr (.inr ⟨rfl, rfl⟩), nofun⟩

variable [DecidableEq Obj]

/-- Whatever commands are run, with whatever response objects, and whatever comes. -/
theorem delivered_along (cfg : AtConfig) (objs : Obj → AtResponse) (es : List (Event Obj))
    (h : Along (step cfg) (fun s e => Settled s e ∧ InTurn cfg s e) (start objs) es) :
    Along (step cfg) Delivered (start objs) es :=
  along_of_along (J := fun s => HandOver.Inv s ∧ Lines cfg s)
    (fun _ _ _ h hgood hstep => ⟨h.1.step hgood.1 hstep, h.2.step h.1 hgood.2 hstep⟩)
    (fun _ _ h hgood => h.2.delivered h.1 hgood.2) ⟨inv_start objs, lines_start cfg objs⟩ h

/-- A command gets the line `FAIL` and fails; the next one gets `AB` and `OK`. The end sign is
`>`. -/
theorem delivered_along_failed :
    Along (step ⟨16, 0x3E, []⟩) Delivered (start fun _ : Unit => atCreateResp 8 0)
      (List.flatten [[.execCmd (some ()), .proceed, .proceed, .proceed, .proceed, .byte 0x46,
          .byte 0x41, .byte 0x49, .byte 0x4C, .byte 0x3E], List.replicate 18 .parse,
        [.proceed, .proceed, .proceed, .proceed, .execCmd (some ()), .proceed, .proceed, .proceed,
          .proceed, .byte 0x41, .byte 0x42, .byte 0x3E], List.replicate 12 .parse,
        [.byte 0x4F, .byte 0x4B, .byte 0x3E], List.replicate 18 .parse,
        [.proceed, .proceed, .proceed, .proceed]]) :=
  delivered_along _ _ _ (by decide +kernel)

/-- The line does not fit the response buffer, and the command returns `RT_EOK` without it. -/
theorem overflow_forgotten :
    ¬Along (step ⟨16, 0x3E, []⟩) Delivered (start fun _ : Unit => atCreateResp 2 0)
      ([Event.execCmd (some ()), .proceed, .proceed, .proceed, .proceed, .byte 0x4F, .byte 0x4B,
        .byte 0x3E] ++ List.replicate 14 Event.parse ++
        [Event.proceed, .proceed, .proceed, .proceed]) := by
  decide +kernel

end ControlRTT.Net.ResponseLines
