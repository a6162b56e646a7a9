import ControlRTT.Components.FinshHeap

/-! # The string literals of a line

`finsh_node_new_string` and the heap under it. While a line is parsed its literals are pointed to
by nodes only, and of these the collector knows nothing: a literal for which there is no room takes
the others with it, unless variables hold them. As long as every literal of a line finds room, or
what is collected for it is not of this line, all of them keep what is in them until the line has
been run (`literals_throughout`). -/
namespace ControlRTT.Components.FinshLiterals
open FinshHeap Lib.CInt Lib.LinkedList Lib.Runs Lib.Tiling

/-- `FINSH_STRING_MAX` -/
def finshStringMax : Nat := 128

/-- The heap with what is in it, none where a header has been written, and the literals of the line
that is parsed or run: the header of each, if it got a block, and its characters. -/
structure Shell where
  sys : System
  data : Nat → Option Char
  literals : List (Option Nat × List Char)

def initial : Shell :=
  ⟨FinshHeap.initial, fun o => if o < headerSize then none else some '\x00', []⟩

/-- The header that `finsh_block_split` writes behind the block, and the `memset`. -/
def clearBlock (data : Nat → Option Char) (header size : Nat) : Nat → Option Char := fun o =>
  if header ≤ o ∧ o < header + headerSize + size + headerSize then
    if header + headerSize ≤ o ∧ o < header + headerSize + size then some '\x00' else none
  else data o

/-- The string with its null character. -/
def putString (data : Nat → Option Char) (ptr : Nat) (str : List Char) : Nat → Option Char :=
  fun o => if ptr ≤ o ∧ o ≤ ptr + str.length then (str ++ ['\x00'])[o - ptr]? else data o

/-- `finsh_node_new_string`, with what the variables hold when the collector comes, and
`finsh_flush`, which forgets the nodes. A string is what the tokenizer's buffer has room for. -/
inductive Event
  | literal (str : List Char) (vars : List FinshVar)
  | flush
  deriving DecidableEq, Repr

/-- A string that gets no block is written through the null pointer, not into the heap. -/
def Shell.step (s : Shell) : Event → Option Shell
  | .literal str vars =>
    if str.length < finshStringMax then
      match s.sys.heap.finshHeapAllocate vars (str.length + 1) with
      | (some header, heap) =>
        some {
          sys := ⟨heap, Function.update s.sys.asked header (str.length + 1)⟩
          data := putString (clearBlock s.data header (heapAlignSize (str.length + 1)))
            (finshBlockGetData header) str
          literals := s.literals ++ [(some header, str)] }
      | (none, heap) =>
        some { s with sys := ⟨heap, s.sys.asked⟩, literals := s.literals ++ [(none, str)] }
    else none
  | .flush => some { s with literals := [] }

/-- The string can be read at the block. -/
def Holds (data : Nat → Option Char) (header : Nat) (str : List Char) : Prop :=
  ∀ i ≤ str.length, data (finshBlockGetData header + i) = (str ++ ['\x00'])[i]?

/-- Every literal of the line has a block, and the block has its characters. -/
def Shell.KeepsLiterals (s : Shell) : Prop :=
  ∀ lit ∈ s.literals, ∃ header, lit.1 = some header ∧ Holds s.data header lit.2

/-- A free block has room for a string and a header, and more than that where `strict`. -/
def HasRoom (heap : Heap) (strict : Bool) (str : List Char) : Prop :=
  ∃ header ∈ walk heap.next finshHeapMax heap.freeList,
    heapAlignSize (str.length + 1) + headerSize + (if strict then 1 else 0) ≤ heap.length header

/-- A literal is the value of a variable that has a type. -/
def Rooted (vars : List FinshVar) (header : Nat) : Prop :=
  vars.any (fun v => v.known && v.ptr == finshBlockGetData header) = true

/-- There is room for the literal without a collection, or there is after one that finds all
literals of the line held by variables. -/
def Spares (s : Shell) : Event → Prop
  | .literal str vars => HasRoom s.sys.heap true str ∨
      (∀ lit ∈ s.literals, ∀ header ∈ lit.1, Rooted vars header) ∧
        HasRoom (s.sys.heap.finshHeapGc vars) false str
  | .flush => True

/-! ## Blocks that are spared -/

section
variable {s t : Heap} {asked : Nat → Nat} {bs : List Block} {vars : List FinshVar}

theorem gcFrom_spares (h : Inv s asked bs) (fuel : Nat) {xs ys : List Nat} {p : Option Nat}
    (hsplit : startsOf true 0 bs = xs ++ ys) (hp : Chain s.next p ys) :
    ∃ bs', Inv (Heap.gcFrom vars fuel p s) asked bs' ∧
      ∀ o ∈ startsOf true 0 bs, Rooted vars o → o ∈ startsOf true 0 bs' := by
  induction fuel generalizing s bs p xs ys with
  | zero => exact ⟨bs, h, fun o ho _ => ho⟩
  | succ fuel ih =>
    cases ys with
    | nil =>
      obtain rfl : p = none := hp
      exact ⟨bs, h, fun o ho _ => ho⟩
    | cons o ys =>
      obtain ⟨rfl, hrest⟩ := hp
      unfold Heap.gcFrom
      dsimp only
      split
      · have hsplit' : startsOf true 0 bs = (xs ++ [o]) ++ ys := by
          rw [hsplit, List.append_assoc, List.singleton_append]
        exact ih h hsplit' hrest
      · rename_i hroot
        obtain ⟨bs₁, hfreed, hsplit'⟩ := h.free hsplit
        have hchain := hfreed.laid.allocated
        rw [hsplit'] at hchain
        obtain ⟨bs', hinv, hspares⟩ := ih hfreed hsplit' (hrest.eq_head ▸ hchain.suffix)
        refine ⟨bs', hinv, fun x hx hrooted => hspares x ?_ hrooted⟩
        rw [hsplit] at hx
        rw [hsplit']
        rcases List.mem_append.mp hx with hx | hx
        · exact List.mem_append_left _ hx
        · rcases List.mem_cons.mp hx with rfl | hx
          · exact absurd hrooted hroot
          · exact List.mem_append_right _ hx

/-- The collector leaves the blocks that variables hold. -/
theorem gc_spares (h : Inv s asked bs) (vars : List FinshVar) :
    ∃ bs', Inv (s.finshHeapGc vars) asked bs' ∧
      ∀ o ∈ startsOf true 0 bs, Rooted vars o → o ∈ startsOf true 0 bs' :=
  gcFrom_spares h _ (List.nil_append _).symm h.laid.allocated

theorem exists_block (h : Inv s asked bs) {o : Nat} (ho : o ∈ startsOf false 0 bs) {size : Nat}
    (hsize : size + headerSize ≤ s.length o) :
    ∃ pre len post, bs = pre ++ ⟨len, false⟩ :: post ∧ o = extent pre ∧
      size + 2 * headerSize ≤ len := by
  obtain ⟨pre, len, post, rfl, rfl⟩ := mem_block h ho
  have hlength : s.length (extent pre) + headerSize = len := h.laid.length_eq
  exact ⟨pre, len, post, rfl, rfl, by omega⟩

/-- Where a literal finds its block, and that the others are still there. -/
theorem allocate_spares (h : Inv s asked bs) {str : List Char} (hstr : str.length < finshStringMax)
    {others : List Nat} (hothers : ∀ o ∈ others, o ∈ startsOf true 0 bs)
    (hroom : HasRoom s true str ∨
      (∀ o ∈ others, Rooted vars o) ∧ HasRoom (s.finshHeapGc vars) false str) :
    ∃ t pre len post,
      s.finshHeapAllocate vars (str.length + 1) =
        (some (extent pre), t.take (extent pre) (heapAlignSize (str.length + 1))) ∧
      Inv t asked (pre ++ ⟨len, false⟩ :: post) ∧
      heapAlignSize (str.length + 1) + 2 * headerSize ≤ len ∧
      ∀ o ∈ others, o ∈ startsOf true 0 (pre ++ ⟨len, false⟩ :: post) := by
  have h8 : headerSize = 8 := rfl
  have hmax : finshStringMax = 128 := rfl
  have hsum : u32 (heapAlignSize (str.length + 1) + headerSize) =
      heapAlignSize (str.length + 1) + headerSize := by
    have halign : heapAlignSize (str.length + 1) ≤ str.length + 1 + 3 := by
      unfold heapAlignSize
      rw [u32_of_lt (by omega)]
      exact Nat.div_mul_le_self _ _
    exact u32_of_lt (by omega)
  unfold HasRoom at hroom
  rw [h.walk_free] at hroom
  unfold Heap.finshHeapAllocate
  dsimp only
  rw [h.walk_free, hsum]
  cases hfirst : (startsOf false 0 bs).find? fun header =>
      decide (heapAlignSize (str.length + 1) + headerSize < s.length header) with
  | some header =>
    have hfits : heapAlignSize (str.length + 1) + headerSize < s.length header := by
      simpa using List.find?_some hfirst
    obtain ⟨pre, len, post, rfl, rfl, hlen⟩ :=
      exists_block h (List.mem_of_find?_eq_some hfirst) (Nat.le_of_lt hfits)
    exact ⟨s, pre, len, post, rfl, h, hlen, hothers⟩
  | none =>
    have hnone : ∀ header ∈ startsOf false 0 bs,
        s.length header ≤ heapAlignSize (str.length + 1) + headerSize := by
      intro header hmem
      have := List.find?_eq_none.mp hfirst header hmem
      simpa using this
    obtain ⟨hrooted, hroom⟩ := hroom.resolve_left fun ⟨header, hmem, hle⟩ => by
      have := hnone header hmem
      rw [if_pos rfl] at hle
      omega
    obtain ⟨bs', hgc, hspares⟩ := gc_spares h vars
    rw [hgc.walk_free] at hroom
    obtain ⟨header, hmem, hle⟩ := hroom
    dsimp only
    rw [hgc.walk_free]
    cases hsecond : (startsOf false 0 bs').find? fun header =>
        decide (heapAlignSize (str.length + 1) + headerSize ≤
          (s.finshHeapGc vars).length header) with
    | some header =>
      have hfits : heapAlignSize (str.length + 1) + headerSize ≤
          (s.finshHeapGc vars).length header := by
        simpa using List.find?_some hsecond
      obtain ⟨pre, len, post, rfl, rfl, hlen⟩ :=
        exists_block hgc (List.mem_of_find?_eq_some hsecond) hfits
      exact ⟨_, pre, len, post, rfl, hgc, hlen, fun o ho =>
        hspares o (hothers o ho) (hrooted o ho)⟩
    | none =>
      have := List.find?_eq_none.mp hsecond header hmem
      exact absurd hle (by simpa using this)

/-- A block is allocated that was free, and the others as before. -/
theorem startsOf_taken {pre post : List Block} {len size : Nat}
    (hlen : size + 2 * headerSize ≤ len) :
    startsOf true 0
        (pre ++ ⟨size + headerSize, true⟩ :: ⟨len - (size + headerSize), false⟩ :: post) =
      startsOf true 0 pre ++ extent pre :: startsOf true (extent pre + len) post := by
  have hsplit := startsOf_split pre (⟨len - (size + headerSize), false⟩ :: post)
    ⟨size + headerSize, true⟩ 0
  rw [Nat.zero_add] at hsplit
  have hsum : extent pre + (size + headerSize) + (len - (size + headerSize)) =
      extent pre + len := by
    omega
  dsimp only at hsplit
  rw [hsplit, startsOf_true_mk_false, hsum]

theorem mem_taken {pre post : List Block} {len size o : Nat} (hlen : size + 2 * headerSize ≤ len)
    (ho : o ∈ startsOf true 0 (pre ++ ⟨len, false⟩ :: post)) :
    o ∈ startsOf true 0
      (pre ++ ⟨size + headerSize, true⟩ :: ⟨len - (size + headerSize), false⟩ :: post) := by
  rw [startsOf_append, startsOf_true_mk_false, Nat.zero_add, List.mem_append] at ho
  rw [startsOf_taken hlen]
  exact List.mem_append.mpr (ho.imp_right fun ho => List.mem_cons_of_mem _ ho)

/-- An allocated block and its data lie on one side of a free block. -/
theorem data_outside {pre post : List Block} {len o : Nat}
    (h : Laid s asked (pre ++ ⟨len, false⟩ :: post))
    (ho : o ∈ startsOf true 0 (pre ++ ⟨len, false⟩ :: post)) :
    finshBlockGetData o + asked o ≤ extent pre ∨ extent pre + len ≤ o := by
  rw [startsOf_append, startsOf_true_mk_false, Nat.zero_add, List.mem_append] at ho
  rcases ho with ho | ho
  · obtain ⟨before, b, behind, rfl, hb, rfl⟩ := mem_startsOf ho
    have hheaders := (headers_append.mp h.headers).1
    obtain ⟨hlength, hasked, -⟩ := (headers_append.mp hheaders).2
    have hle := hasked hb
    unfold finshBlockGetData
    rw [extent_append, extent_cons]
    exact .inl (by omega)
  · exact .inr (ge_of_mem_startsOf ho)

end

/-! ## What is in the blocks -/

section
variable {data : Nat → Option Char} {o header size ptr : Nat} {str : List Char}

theorem clearBlock_outside (h : o < header ∨ header + size + 2 * headerSize ≤ o) :
    clearBlock data header size o = data o :=
  if_neg fun hin => by omega

theorem putString_outside (h : o < ptr ∨ ptr + str.length < o) :
    putString data ptr str o = data o :=
  if_neg fun hin => by omega

theorem holds_putString : Holds (putString data (finshBlockGetData header) str) header str := by
  intro i hi
  unfold putString
  rw [if_pos ⟨Nat.le_add_right _ _, Nat.add_le_add_left hi _⟩, Nat.add_sub_cancel_left]

/-- What is written into a block is nothing to a string in another one. -/
theorem Holds.write {other : List Char} {at' : Nat} (h : Holds data at' other)
    (hsize : str.length + 1 ≤ size)
    (hapart : finshBlockGetData at' + (other.length + 1) ≤ header ∨
      header + size + 2 * headerSize ≤ at') :
    Holds (putString (clearBlock data header size) (finshBlockGetData header) str) at' other := by
  intro i hi
  unfold finshBlockGetData at hapart ⊢
  rw [putString_outside (by omega), clearBlock_outside (by omega)]
  exact h i hi

end

/-! ## Every run -/

/-- The literals of the line lie in allocated blocks. -/
structure Kept (s : Shell) (bs : List Block) : Prop where
  inv : Inv s.sys.heap s.sys.asked bs
  literal : ∀ lit ∈ s.literals, ∃ header, lit.1 = some header ∧ header ∈ startsOf true 0 bs ∧
    s.sys.asked header = lit.2.length + 1 ∧ Holds s.data header lit.2

theorem Kept.keepsLiterals {s : Shell} {bs : List Block} (h : Kept s bs) : s.KeepsLiterals := by
  intro lit hlit
  obtain ⟨header, hheader, -, -, hholds⟩ := h.literal lit hlit
  exact ⟨header, hheader, hholds⟩

theorem Kept.initial : Kept initial [⟨finshHeapMax, false⟩] :=
  ⟨Inv.initial, fun lit hlit => by cases hlit⟩

theorem align_le {n : Nat} (h : n ≤ finshStringMax) : n ≤ heapAlignSize n := by
  have hmax : finshStringMax = 128 := rfl
  unfold heapAlignSize
  rw [u32_of_lt (by omega)]
  omega

theorem Kept.step {s s' : Shell} {bs : List Block} {e : Event} (h : Kept s bs)
    (hspares : Spares s e) (hstep : s.step e = some s') : ∃ bs', Kept s' bs' := by
  cases e with
  | flush =>
    obtain rfl := Option.some.inj hstep
    exact ⟨bs, h.inv, fun lit hlit => by cases hlit⟩
  | literal str vars =>
    obtain ⟨hstr, hstep⟩ := Option.ite_none_right_eq_some.mp hstep
    have hothers : ∀ o ∈ s.literals.filterMap Prod.fst, o ∈ startsOf true 0 bs := by
      intro o ho
      obtain ⟨lit, hlit, hfst⟩ := List.mem_filterMap.mp ho
      obtain ⟨header, hheader, hmem, -⟩ := h.literal lit hlit
      rw [hheader] at hfst
      exact Option.some.inj hfst ▸ hmem
    have hroom : HasRoom s.sys.heap true str ∨
        (∀ o ∈ s.literals.filterMap Prod.fst, Rooted vars o) ∧
          HasRoom (s.sys.heap.finshHeapGc vars) false str := by
      refine hspares.imp_right fun ⟨hrooted, hroom⟩ => ⟨fun o ho => ?_, hroom⟩
      obtain ⟨lit, hlit, hfst⟩ := List.mem_filterMap.mp ho
      exact hrooted lit hlit o hfst
    obtain ⟨t, pre, len, post, hallocate, hinv, hlen, hkept⟩ :=
      allocate_spares h.inv hstr hothers hroom
    rw [hallocate] at hstep
    obtain rfl := Option.some.inj hstep
    have hn : str.length + 1 ≤ heapAlignSize (str.length + 1) := align_le hstr
    have htaken := hinv.take_block hlen hn
    refine ⟨_, htaken, fun lit hlit => ?_⟩
    rcases List.mem_append.mp hlit with hlit | hlit
    · obtain ⟨header, hheader, -, hasked, hholds⟩ := h.literal lit hlit
      have hmem := hkept header (List.mem_filterMap.mpr ⟨lit, hlit, hheader⟩)
      have hne : header ≠ extent pre := fun heq => hinv.laid.not_mem (heq ▸ hmem)
      have hout := data_outside hinv.laid hmem
      rw [hasked] at hout
      refine ⟨header, hheader, mem_taken hlen hmem, ?_, ?_⟩
      · exact (Function.update_of_ne hne _ _).trans hasked
      · exact hholds.write hn (hout.imp_right fun hle => by omega)
    · obtain rfl := List.mem_singleton.mp hlit
      refine ⟨extent pre, rfl, ?_, Function.update_self _ _ _, holds_putString⟩
      rw [startsOf_taken hlen]
      exact List.mem_append_right _ List.mem_cons_self

instance (vars : List FinshVar) (header : Nat) : Decidable (Rooted vars header) :=
  inferInstanceAs (Decidable (_ = true))

instance (heap : Heap) (strict : Bool) (str : List Char) : Decidable (HasRoom heap strict str) :=
  inferInstanceAs (Decidable (∃ header ∈ walk heap.next finshHeapMax heap.freeList, _))

instance (s : Shell) (e : Event) : Decidable (Spares s e) := by
  cases e <;> unfold Spares <;> infer_instance

/-- In every run in which the literals of each line are spared they keep what is in them. -/
theorem literals_throughout (es : List Event) (h : Along Shell.step Spares initial es) :
    Throughout Shell.step Shell.KeepsLiterals initial es :=
  throughout_of_along (J := fun s => ∃ bs, Kept s bs) (fun _ ⟨_, hkept⟩ => hkept.keepsLiterals)
    (fun _ _ _ ⟨_, hkept⟩ hspares hstep => hkept.step hspares hstep) ⟨_, .initial⟩ h

/-- Two literals of a line, and one of the next for which the first of them is collected: only the
second is held by a variable. -/
theorem literals_throughout_two_lines :
    Throughout Shell.step Shell.KeepsLiterals initial
      [.literal (List.replicate 60 'a') [], .literal "second".toList [], .flush,
        .literal (List.replicate 40 'b') [⟨true, 80⟩]] :=
  literals_throughout _ (by decide +kernel)

/-- Five literals of 12 characters each, which a line of 80 characters has room for. -/
def fiveLiterals : List Event :=
  ['a', 'b', 'c', 'd', 'e'].map fun c => .literal (List.replicate 12 c) []

/-- The fifth one is put where the first one was. -/
theorem fifth_literal_over_first :
    ¬ ∀ es, Throughout Shell.step Shell.KeepsLiterals initial es := by
  intro h
  have hrun : (run Shell.step initial fiveLiterals).any (fun s =>
      decide ((some 0, List.replicate 12 'a') ∈ s.literals ∧ s.data 8 = some 'e')) = true := by
    decide +kernel
  cases hs : run Shell.step initial fiveLiterals with
  | none =>
    rw [hs] at hrun
    cases hrun
  | some s =>
    rw [hs] at hrun
    obtain ⟨hmem, hdata⟩ := of_decide_eq_true hrun
    obtain ⟨header, hheader, hholds⟩ := (h fiveLiterals).last hs _ hmem
    obtain rfl := Option.some.inj hheader
    have hfirst := hholds 0 (Nat.zero_le _)
    rw [show finshBlockGetData 0 + 0 = 8 from rfl, hdata] at hfirst
    cases hfirst

end ControlRTT.Components.FinshLiterals
