import ControlRTT.Lib.CString
import ControlRTT.Lib.Runs
import ControlRTT.Applications.Config
import Mathlib.Data.List.Infix

/-! # The debug port (debugUsart.c)

`debugAnsy` is called with one received byte at a time. It collects the bytes in `s_revBuff`, and
takes eight bytes that begin with the device id for a command, the word `begin` for a greeting,
and a text that ends in a semicolon and has `ccid` in it for the name of a device. The text
functions are called on the whole buffer, with a name of any length and with no terminator of
its own. -/
namespace ControlRTT.Applications.DebugPort
open ControlRTT.Lib ControlRTT.Lib.CInt ControlRTT.Lib.Runs ControlRTT.Applications.Config

def revBuffCount : Nat := 100
def revDeviceId : Byte := 0x01

/-- The static variables of `debugAnsy`, with their initializers, and the record. -/
structure Port where
  revStauts : Byte := 0
  sRevBuff : Vector Byte 100 := Vector.replicate 100 0
  sIndex : Nat := 0
  gFlashData : StuFlashData
  deriving DecidableEq, Repr

/-- What a call does besides: a call of `getCmdData` with the eight bytes it gets, a line printed,
and effects. -/
inductive Output where
  | getCmdData (buff : CmdBuff)
  | print (text : List Byte)
  | effect (e : Effect)
  deriving DecidableEq, Repr

/-- `"begin"` -/
def beginText : List Byte := [0x62, 0x65, 0x67, 0x69, 0x6E]

/-- `"ccid"` -/
def ccidText : List Byte := [0x63, 0x63, 0x69, 0x64]

/-- `';'` -/
def semicolon : Byte := 0x3B

def isspace (ch : Byte) : Bool := ch = 0x20 ∨ 0x09 ≤ ch ∧ ch ≤ 0x0D

namespace Port

/-- The text that `strstr` and `sscanf` find in the buffer, if it has a terminator. -/
def text (p : Port) : List Byte := CString.text 0 p.sRevBuff.toList

/-- The buffer is cleared. -/
def cleared (p : Port) : Port := { p with sRevBuff := Vector.replicate 100 0, sIndex := 0 }

/-- The flag is set when the device id comes first. -/
def flag (p : Port) (ch : Byte) : Byte :=
  if ch = revDeviceId ∧ p.sIndex = 0 then 1 else p.revStauts

/-- The byte is stored, which must be inside the buffer. -/
def stored (p : Port) (ch : Byte) : Option Port :=
  if h : p.sIndex < 100 then
    some { p with
      revStauts := p.flag ch
      sRevBuff := p.sRevBuff.set p.sIndex ch h
      sIndex := p.sIndex + 1 }
  else none

/-- The first eight bytes of the buffer. -/
def cmdBuff (p : Port) : CmdBuff := Vector.ofFn fun i => p.sRevBuff[i]

/-- Eight bytes are a command if they began with the device id. -/
def command (p : Port) : Port × List Output :=
  if p.revStauts = 1 ∧ p.sIndex = 8 then
    ({ p.cleared with revStauts := 0, gFlashData := (getCmdData p.gFlashData p.cmdBuff).1 },
      .getCmdData p.cmdBuff :: (getCmdData p.gFlashData p.cmdBuff).2.map .effect)
  else (p, [])

def wrap (p : Port) : Port := if p.sIndex = revBuffCount then { p with sIndex := 0 } else p

/-- `strstr` for `begin` needs a terminator in the buffer. -/
def greet (p : Port) : Option (Port × List Output) :=
  if (0 : Byte) ∈ p.sRevBuff then
    if beginText <:+: p.text then some (p.cleared, [.print beginText]) else some (p, [])
  else none

/-- What `sscanf` puts into `ccid[20]`: nothing if the text does not begin with `ccid`. -/
def sscanfCcid (text : List Byte) : List Byte :=
  if ccidText <+: text then CString.word isspace (text.drop ccidText.length) else []

/-- `memcpy` of the name without its last character, and the terminator behind it. -/
def copyDevice (blueDevice : Vector Byte 20) (ccid : List Byte) : Vector Byte 20 :=
  Vector.ofFn fun i =>
    if i < ccid.length - 1 then ccid.getD i 0
    else if i = ccid.length - 1 then 0 else blueDevice[i]

/-- `ccid[20]` has room for 19 characters, and the length of an empty name, less 1, wraps to
`2^32 - 1`. -/
def storeDevice (p : Port) : Option (Port × List Output) :=
  if 1 ≤ (sscanfCcid p.text).length ∧ (sscanfCcid p.text).length < 20 then
    some ({ p.cleared with gFlashData := { p.gFlashData with
        blueDevice := copyDevice p.gFlashData.blueDevice (sscanfCcid p.text) } },
      [.effect (sendSignalDataToPc 0 0)])
  else none

/-- A semicolon ends a record. -/
def record (p : Port) (ch : Byte) : Option (Port × List Output) :=
  if ccidText <:+: p.text ∧ ch = semicolon then p.storeDevice else some (p, [])

/-- The port where `strstr` is called first. -/
def searched (p : Port) (ch : Byte) : Option (Port × List Output) :=
  (p.stored ch).map fun p => (p.command.1.wrap, p.command.2)

/-- `debugAnsy`. An access outside a buffer is undefined (`none`). -/
def debugAnsy (p : Port) (ch : Byte) : Option (Port × List Output) :=
  (p.searched ch).bind fun (p, out) => p.greet.bind fun (p, out') =>
    (p.record ch).map fun (p, out'') => (p, out ++ out' ++ out'')

end Port

/-- The port after a byte. -/
def step (p : Port) (ch : Byte) : Option Port := (p.debugAnsy ch).map Prod.fst

def powerOn (g : StuFlashData) : Port := { gFlashData := g }

/-- A record is recognised in the text. -/
def Recognised (text : List Byte) (ch : Byte) : Prop :=
  ¬ beginText <:+: text ∧ ccidText <:+: text ∧ ch = semicolon

instance (text : List Byte) (ch : Byte) : Decidable (Recognised text ch) :=
  inferInstanceAs (Decidable (_ ∧ _ ∧ _))

/-- The index stays in the buffer, the text functions find a terminator, and the name of a record
fits into its buffers and is stored without its semicolon. -/
structure InBounds (p : Port) (ch : Byte) : Prop where
  index : p.sIndex ≤ 99
  next : ∀ p', step p ch = some p' → p'.sIndex ≤ 99
  terminated : ∀ q out, p.searched ch = some (q, out) → (0 : Byte) ∈ q.sRevBuff
  device : ∀ q out, p.searched ch = some (q, out) → Recognised q.text ch →
    1 ≤ (Port.sscanfCcid q.text).length ∧ (Port.sscanfCcid q.text).length ≤ 19 ∧
    ∃ p', step p ch = some p' ∧
      CString.text 0 p'.gFlashData.blueDevice.toList ++ [semicolon] = Port.sscanfCcid q.text

/-- The byte is the last one of a command. -/
def Completes (p : Port) : Prop := p.revStauts = 1 ∧ p.sIndex = 7

/-- A text that is `ccid`, white space, and a name of at most 18 characters with a semicolon;
whatever follows is behind more white space. -/
def IsRecord (text : List Byte) : Prop :=
  ∃ blanks name rest, text = ccidText ++ (blanks ++ (name ++ [semicolon]) ++ rest) ∧
    (∀ b ∈ blanks, isspace b = true) ∧ (∀ b ∈ name, isspace b = false) ∧ name.length ≤ 18 ∧
    ∀ b ∈ rest.head?, isspace b = true

/-- The text in the buffer with the byte. -/
def Port.textWith (p : Port) (ch : Byte) : List Byte :=
  CString.text 0 (p.sRevBuff.toList.set p.sIndex ch)

/-- The byte is not stored over the last terminator, and if it makes a text with `ccid` end in a
semicolon, the text is a record. -/
structure Proper (p : Port) (ch : Byte) : Prop where
  terminator : ch = 0 ∨ ∃ i, i ≠ p.sIndex ∧ p.sRevBuff.toList[i]? = some 0
  record : Recognised (p.textWith ch) ch → IsRecord (p.textWith ch)

/-! ## Records -/

/-- The word that `sscanf` reads from a record is its name and semicolon. -/
theorem isRecord_iff (t : List Byte) : IsRecord t ↔
    ∃ name, Port.sscanfCcid t = name ++ [semicolon] ∧ name.length ≤ 18 := by
  unfold Port.sscanfCcid
  constructor
  · rintro ⟨blanks, name, rest, rfl, hblanks, hname, hlen, hrest⟩
    refine ⟨name, ?_, hlen⟩
    rw [if_pos (List.prefix_append _ _), List.drop_left]
    refine CString.word_append hblanks (fun b hb => ?_) (by simp) hrest
    obtain hb | hb := List.mem_append.mp hb
    · exact hname b hb
    · rw [List.mem_singleton.mp hb]
      decide
  · rintro ⟨name, hword, hlen⟩
    split at hword
    · rename_i hpre
      obtain ⟨t, rfl⟩ := hpre
      rw [List.drop_left] at hword
      obtain ⟨blanks, rest, ht, hblanks, hrest⟩ := CString.exists_word isspace t
      rw [hword] at ht
      refine ⟨blanks, name, rest, congrArg _ ht, hblanks, fun b hb => ?_, hlen, hrest⟩
      exact CString.space_of_mem_word (hword ▸ List.mem_append_left _ hb)
    · simp at hword

theorem nul_notMem_sscanfCcid {t : List Byte} (h : (0 : Byte) ∉ t) :
    (0 : Byte) ∉ Port.sscanfCcid t := by
  unfold Port.sscanfCcid
  split
  · exact fun hmem => h (List.mem_of_mem_drop (CString.word_subset _ hmem))
  · exact List.not_mem_nil

theorem getElem_copyDevice (blueDevice : Vector Byte 20) (ccid : List Byte) {i : Nat}
    (hi : i < 20) : (Port.copyDevice blueDevice ccid)[i] =
      if i < ccid.length - 1 then ccid.getD i 0
      else if i = ccid.length - 1 then 0 else blueDevice[i] := by
  unfold Port.copyDevice
  rw [Vector.getElem_ofFn]
  rfl

/-- The device gets the name without its last character. -/
theorem text_copyDevice (blueDevice : Vector Byte 20) {ccid : List Byte} (h : (0 : Byte) ∉ ccid)
    (hpos : 1 ≤ ccid.length) (hlen : ccid.length < 20) :
    CString.text 0 (Port.copyDevice blueDevice ccid).toList = ccid.dropLast := by
  have hsplit : (Port.copyDevice blueDevice ccid).toList =
      ccid.dropLast ++ 0 :: blueDevice.toList.drop ccid.length := by
    apply List.ext_getElem
    · simp only [Vector.length_toList, List.length_append, List.length_dropLast, List.length_cons,
        List.length_drop]
      omega
    · intro i hi _
      have hi' : i < 20 := by simpa using hi
      rw [Vector.getElem_toList, getElem_copyDevice _ _ hi', List.getElem_append]
      simp only [List.length_dropLast, List.getElem_dropLast]
      by_cases hlt : i < ccid.length - 1
      · rw [if_pos hlt, dif_pos hlt, List.getD_eq_getElem?_getD,
          List.getElem?_eq_getElem (by omega), Option.getD_some]
      · rw [if_neg hlt, dif_neg hlt, List.getElem_cons]
        by_cases heq : i = ccid.length - 1
        · rw [if_pos heq, dif_pos (by omega)]
        · rw [if_neg heq, dif_neg (by omega), List.getElem_drop, Vector.getElem_toList]
          congr 1
          omega
  rw [hsplit, CString.text_append_nul fun hmem => h (List.dropLast_subset _ hmem)]

/-- A record's name is stored without its semicolon, and a name that is stored so is of one. -/
theorem storeDevice_iff (p : Port) :
    (1 ≤ (Port.sscanfCcid p.text).length ∧ (Port.sscanfCcid p.text).length ≤ 19 ∧
      ∃ p' out, p.storeDevice = some (p', out) ∧
        CString.text 0 p'.gFlashData.blueDevice.toList ++ [semicolon] = Port.sscanfCcid p.text) ↔
      IsRecord p.text := by
  have hnul : (0 : Byte) ∉ Port.sscanfCcid p.text :=
    nul_notMem_sscanfCcid CString.nul_notMem_text
  rw [isRecord_iff]
  constructor
  · rintro ⟨hpos, hlen, p', out, hp', htext⟩
    refine ⟨_, htext.symm, ?_⟩
    rw [← htext, List.length_append, List.length_singleton] at hlen
    omega
  · rintro ⟨name, hname, hlen⟩
    have hlength : (Port.sscanfCcid p.text).length = name.length + 1 := by
      rw [hname, List.length_append, List.length_singleton]
    refine ⟨by omega, by omega, _, _, if_pos ⟨by omega, by omega⟩, ?_⟩
    dsimp only
    rw [text_copyDevice _ hnul (by omega) (by omega), hname, List.dropLast_concat]

/-! ## A call -/

/-- The last byte of a command. -/
theorem Port.searched_of_completes {p : Port} (h : Completes p) (ch : Byte) :
    ∃ (q : Port) (buff : CmdBuff) (effects : List Effect),
      p.searched ch = some (q, .getCmdData buff :: effects.map .effect) ∧
      buff.toList = (p.sRevBuff.toList.set p.sIndex ch).take 8 ∧
      q.sRevBuff = Vector.replicate 100 0 ∧ q.sIndex = 0 ∧ q.revStauts = 0 := by
  have hlt : p.sIndex < 100 := by rw [h.2]; decide
  have hkeep : p.flag ch = 1 := by
    unfold Port.flag
    rw [if_neg (by rw [h.2]; exact fun hzero => absurd hzero.2 (by decide)), h.1]
  unfold Port.searched Port.stored
  rw [dif_pos hlt, Option.map_some]
  unfold Port.command
  rw [hkeep, if_pos ⟨rfl, congrArg (· + 1) h.2⟩]
  refine ⟨_, _, _, rfl, ?_, ?_⟩
  · rw [← Vector.toList_set hlt]
    unfold Port.cmdBuff
    apply List.ext_getElem
    · simp
    · intro i hi _
      simp
  · exact ⟨rfl, rfl, rfl⟩

/-- The byte has been stored and nothing else has happened. -/
structure Plain (p : Port) (ch : Byte) (q : Port) : Prop where
  buff : q.sRevBuff.toList = p.sRevBuff.toList.set p.sIndex ch
  index : q.sIndex = if p.sIndex = 99 then 0 else p.sIndex + 1
  flag : q.revStauts = p.flag ch

theorem Port.searched_of_not {p : Port} (hi : p.sIndex ≤ 99) (h : ¬ Completes p) (ch : Byte) :
    ∃ q, p.searched ch = some (q, []) ∧ Plain p ch q := by
  have hlt : p.sIndex < 100 := by omega
  have hset : (p.sRevBuff.set p.sIndex ch hlt).toList = p.sRevBuff.toList.set p.sIndex ch :=
    Vector.toList_set hlt
  have hnot : ¬ (p.flag ch = 1 ∧ p.sIndex + 1 = 8) := by
    rintro ⟨hflag, hindex⟩
    unfold Port.flag at hflag
    rw [if_neg (by omega)] at hflag
    exact h ⟨hflag, by omega⟩
  unfold Port.searched Port.stored
  rw [dif_pos hlt, Option.map_some]
  unfold Port.command Port.wrap
  dsimp only
  rw [if_neg hnot]
  dsimp only
  split
  · rename_i hlast
    unfold revBuffCount at hlast
    exact ⟨_, rfl, hset, (if_pos (by omega)).symm, rfl⟩
  · rename_i hlast
    unfold revBuffCount at hlast
    exact ⟨_, rfl, hset, (if_neg (by omega)).symm, rfl⟩

theorem Port.text_of_blank {q : Port} (h : q.sRevBuff = Vector.replicate 100 0) : q.text = [] := by
  unfold Port.text
  rw [h]
  rfl

/-- What is left of a call where `strstr` is called first. -/
theorem Port.debugAnsy_of_searched {p q : Port} {ch : Byte} {out : List Output}
    (h : p.searched ch = some (q, out)) : p.debugAnsy ch =
      if (0 : Byte) ∈ q.sRevBuff then
        if beginText <:+: q.text then some (q.cleared, out ++ [.print beginText])
        else (q.record ch).map fun (r, out') => (r, out ++ out')
      else none := by
  unfold Port.debugAnsy
  rw [h, Option.bind_some]
  unfold Port.greet
  dsimp only
  split
  · split
    · have hnot : ¬ (ccidText <:+: q.cleared.text ∧ ch = semicolon) := by
        rw [Port.text_of_blank rfl]
        exact fun hr => absurd hr.1 (by decide)
      rw [Option.bind_some]
      unfold Port.record
      rw [if_neg hnot, Option.map_some, List.append_nil]
    · rw [Option.bind_some]
      dsimp only
      rw [List.append_nil]
  · rfl

theorem step_of_searched {p q : Port} {ch : Byte} {out : List Output}
    (h : p.searched ch = some (q, out)) : step p ch =
      if (0 : Byte) ∈ q.sRevBuff then
        if beginText <:+: q.text then some q.cleared else (q.record ch).map Prod.fst
      else none := by
  unfold step
  rw [Port.debugAnsy_of_searched h]
  split
  · split
    · rfl
    · rw [Option.map_map]
      rfl
  · rfl

theorem Port.index_searched {p q : Port} (hi : p.sIndex ≤ 99) {ch : Byte} {out : List Output}
    (h : p.searched ch = some (q, out)) : q.sIndex ≤ 99 := by
  by_cases hc : Completes p
  · obtain ⟨q', buff, effects, hq, -, -, hzero, -⟩ := Port.searched_of_completes hc ch
    obtain ⟨rfl, -⟩ := Prod.mk.inj (Option.some.inj (h.symm.trans hq))
    exact hzero ▸ Nat.zero_le _
  · obtain ⟨q', hq, hplain⟩ := Port.searched_of_not hi hc ch
    obtain ⟨rfl, -⟩ := Prod.mk.inj (Option.some.inj (h.symm.trans hq))
    rw [hplain.index]
    split
    · exact Nat.zero_le _
    · omega

theorem step_index {p p' : Port} {ch : Byte} (hi : p.sIndex ≤ 99) (h : step p ch = some p') :
    p'.sIndex ≤ 99 := by
  obtain ⟨⟨q, out⟩, hq, -⟩ : ∃ r, p.searched ch = some r ∧ True := by
    cases hs : p.searched ch with
    | none =>
      unfold step Port.debugAnsy at h
      rw [hs] at h
      cases h
    | some r => exact ⟨r, rfl, trivial⟩
  rw [step_of_searched hq] at h
  obtain ⟨-, h⟩ := Option.ite_none_right_eq_some.mp h
  split at h
  · obtain rfl := Option.some.inj h
    exact Nat.zero_le _
  · obtain ⟨r, hr, rfl⟩ := Option.map_eq_some_iff.mp h
    unfold Port.record at hr
    split at hr
    · unfold Port.storeDevice at hr
      obtain ⟨-, hr⟩ := Option.ite_none_right_eq_some.mp hr
      obtain rfl := Option.some.inj hr
      exact Nat.zero_le _
    · obtain rfl := Option.some.inj hr
      exact Port.index_searched hi hq

/-- A call that is not the last one of a command is in bounds exactly if the byte is proper. -/
theorem inBounds_iff_proper {p : Port} (hi : p.sIndex ≤ 99) (hc : ¬ Completes p) (ch : Byte) :
    InBounds p ch ↔ Proper p ch := by
  obtain ⟨q, hq, hplain⟩ := Port.searched_of_not hi hc ch
  have htext : q.text = p.textWith ch := congrArg (CString.text 0) hplain.buff
  have hnul : (0 : Byte) ∈ q.sRevBuff ↔
      ch = 0 ∨ ∃ i, i ≠ p.sIndex ∧ p.sRevBuff.toList[i]? = some 0 := by
    rw [← Vector.mem_toList_iff, hplain.buff]
    exact CString.mem_set_iff (by simpa using Nat.lt_succ_of_le hi)
  have hrecord : (0 : Byte) ∈ q.sRevBuff → Recognised q.text ch →
      step p ch = q.storeDevice.map Prod.fst := by
    intro hmem hrec
    rw [step_of_searched hq, if_pos hmem, if_neg hrec.1]
    unfold Port.record
    rw [if_pos hrec.2]
  have hdevice := storeDevice_iff q
  constructor
  · intro h
    have hmem := h.terminated q [] hq
    refine ⟨hnul.mp hmem, fun hrec => ?_⟩
    rw [← htext] at hrec ⊢
    obtain ⟨hpos, hlen, p', hp', hname⟩ := h.device q [] hq hrec
    rw [hrecord hmem hrec] at hp'
    obtain ⟨⟨p', out⟩, hstore, rfl⟩ := Option.map_eq_some_iff.mp hp'
    exact hdevice.mp ⟨hpos, hlen, p', out, hstore, hname⟩
  · intro h
    have hmem := hnul.mpr h.terminator
    refine ⟨hi, fun p' hp' => step_index hi hp', fun q' out hq' => ?_, fun q' out hq' hrec => ?_⟩
    · obtain ⟨rfl, -⟩ := Prod.mk.inj (Option.some.inj (hq.symm.trans hq'))
      exact hmem
    · obtain ⟨rfl, -⟩ := Prod.mk.inj (Option.some.inj (hq.symm.trans hq'))
      obtain ⟨hpos, hlen, p', out, hstore, hname⟩ :=
        hdevice.mpr (htext ▸ h.record (htext ▸ hrec))
      exact ⟨hpos, hlen, p', by rw [hrecord hmem hrec, hstore]; rfl, hname⟩

/-- The last byte of a command clears the buffer. -/
theorem inBounds_of_completes {p : Port} (hc : Completes p) (ch : Byte) : InBounds p ch := by
  have hi : p.sIndex ≤ 99 := by rw [hc.2]; decide
  obtain ⟨q, buff, effects, hq, -, hblank, -⟩ := Port.searched_of_completes hc ch
  refine ⟨hi, fun p' hp' => step_index hi hp', fun q' out' hq' => ?_, fun q' out' hq' hrec => ?_⟩
  · obtain ⟨rfl, -⟩ := Prod.mk.inj (Option.some.inj (hq.symm.trans hq'))
    rw [hblank]
    exact Vector.mem_replicate.mpr ⟨by decide, rfl⟩
  · obtain ⟨rfl, -⟩ := Prod.mk.inj (Option.some.inj (hq.symm.trans hq'))
    rw [Port.text_of_blank hblank] at hrec
    exact absurd hrec.2.1 (by decide)

/-! ## Streams -/

/-- Whatever the port receives from power on, every call stays in bounds exactly if every byte is
the last one of a command or proper. -/
theorem inBounds_iff (g : StuFlashData) (stream : List Byte) :
    AtEach step InBounds (powerOn g) stream ↔
      AtEach step (fun p ch => Completes p ∨ Proper p ch) (powerOn g) stream := by
  refine atEach_congr (J := fun p => p.sIndex ≤ 99) (fun _ _ _ hi _ => step_index hi)
    (fun p ch hi => ?_) (Nat.zero_le _) stream
  by_cases hc : Completes p
  · exact iff_of_true (inBounds_of_completes hc ch) (.inl hc)
  · rw [inBounds_iff_proper hi hc ch, or_iff_right hc]

/-- `xccid` -/
def misplacedCcid : List Byte := [0x78, 0x63, 0x63, 0x69, 0x64]

/-- `ccid` is in the text but not at its beginning, and `sscanf` reads no name. -/
theorem name_is_not_read :
    ¬ AtEach step InBounds (powerOn (.ofBytes fun _ => 0)) (misplacedCcid ++ [semicolon]) :=
  fun h => by
    obtain ⟨p, hp⟩ : ∃ p, p = { powerOn (.ofBytes fun _ => 0) with
      sRevBuff := Vector.ofFn fun i => misplacedCcid.getD i 0
      sIndex := 5 } := ⟨_, rfl⟩
    have hrun : run step (powerOn (.ofBytes fun _ => 0)) misplacedCcid = some p := by
      rw [hp]
      decide +kernel
    have hbounds := h.of_run hrun
    have hrec : Recognised (p.textWith semicolon) semicolon := by
      rw [hp]
      decide +kernel
    have hproper := (inBounds_iff_proper (by rw [hp]; decide)
      (fun hc => by rw [hp] at hc; exact absurd hc.2 (by decide)) semicolon).mp hbounds
    obtain ⟨name, hname, -⟩ := (isRecord_iff _).mp (hproper.record hrec)
    have hnothing : Port.sscanfCcid (p.textWith semicolon) = [] := by
      rw [hp]
      decide +kernel
    exact absurd (hname.symm.trans hnothing) (by simp)

end ControlRTT.Applications.DebugPort
