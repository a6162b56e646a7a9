import ControlRTT.Lib.Extents
import ControlRTT.Lib.Runs
import ControlRTT.Lib.CInt

/-! # The page allocator of the slab heap (slab.c)

A free run of pages begins with a `struct rt_page_head`: the number of its pages and
the next free run. A pointer to a page is the number of the page, its address divided
by `RT_MM_PAGE_SIZE`; the null pointer is page 0. The loops refine `takeFirst` and
`giveBack` on the extents that the list links, and the list stays sorted, joined as
far as possible and disjoint from the runs that are handed out, which are disjoint
from each other (`pages_throughout`). -/
namespace ControlRTT.Kernel.SlabPage
open ControlRTT.Lib.Extents ControlRTT.Lib.Runs

/-- `struct rt_page_head`. -/
structure PageHead where
  next : Nat
  page : Nat
  deriving DecidableEq, Repr

/-- `rt_page_list`, and what each page begins with. -/
structure PageHeap where
  rtPageList : Nat
  head : Nat → PageHead

/-- The pages of the address space. A walk of the list that visits more of them visits one
twice, and does not end. -/
def pageLimit : Nat := 2 ^ 20

namespace PageHeap

/-- `*prev`: the list head, or the link of a page. -/
def next (s : PageHeap) : Option Nat → Nat
  | none => s.rtPageList
  | some b => (s.head b).next

def setHead (s : PageHeap) (b : Nat) (h : PageHead) : PageHeap :=
  { s with head := fun x => if x = b then h else s.head x }

/-- `*prev = b`. -/
def setNext (s : PageHeap) (prev : Option Nat) (b : Nat) : PageHeap :=
  match prev with
  | none => { s with rtPageList := b }
  | some p => s.setHead p { s.head p with next := b }

end PageHeap

/-- The loop of `rt_page_alloc`; the result is the run, or zero. -/
def allocLoop (npages : Nat) : Nat → PageHeap → Option Nat → Option (PageHeap × Nat)
  | 0, _, _ => none
  | fuel + 1, s, prev =>
    let b := s.next prev
    if b = 0 then some (s, 0)
    else if (s.head b).page > npages then
      let n := b + npages
      let s' := s.setHead n { next := (s.head b).next, page := (s.head b).page - npages }
      some (s'.setNext prev n, b)
    else if (s.head b).page = npages then some (s.setNext prev (s.head b).next, b)
    else allocLoop npages fuel s (some b)

def rtPageAlloc (s : PageHeap) (npages : Nat) : Option (PageHeap × Nat) :=
  if npages = 0 then some (s, 0) else allocLoop npages (pageLimit + 1) s none

/-- The run is linked in between `prev` and `b`. -/
def linkRun (s : PageHeap) (prev : Option Nat) (b n npages : Nat) : PageHeap :=
  (s.setHead n { next := b, page := npages }).setNext prev n

/-- The loop of `rt_page_free`; a failed assertion does not return. -/
def freeLoop (n npages : Nat) : Nat → PageHeap → Option Nat → Option PageHeap
  | 0, _, _ => none
  | fuel + 1, s, prev =>
    let b := s.next prev
    if b = 0 then some (linkRun s prev b n npages)
    else
      let h := s.head b
      if h.page = 0 ∨ ¬ (b > n ∨ b + h.page ≤ n) then none
      else if b + h.page = n then
        if b + (h.page + npages) = h.next then
          some (s.setHead b {
            next := (s.head h.next).next
            page := h.page + npages + (s.head h.next).page })
        else some (s.setHead b { h with page := h.page + npages })
      else if b = n + npages then
        some ((s.setHead n { next := h.next, page := h.page + npages }).setNext prev n)
      else if b > n + npages then some (linkRun s prev b n npages)
      else freeLoop n npages fuel s (some b)

def rtPageFree (s : PageHeap) (addr npages : Nat) : Option PageHeap :=
  if addr = 0 ∨ npages = 0 then none else freeLoop addr npages (pageLimit + 1) s none

def rtPageInit (s : PageHeap) (addr npages : Nat) : Option PageHeap :=
  rtPageFree { s with rtPageList := 0 } addr npages

/-! ## The extents of the list -/

/-- From the page `p` the list links exactly these extents. -/
def Listed (s : PageHeap) : Nat → List Extent → Prop
  | p, [] => p = 0
  | p, e :: l => p = e.start ∧ e.start ≠ 0 ∧ (s.head p).page = e.len ∧
      Listed s (s.head p).next l

namespace PageHeap
variable (s : PageHeap)

@[simp] theorem setHead_self (b : Nat) (h : PageHead) : (s.setHead b h).head b = h :=
  if_pos rfl

theorem setHead_ne {b x : Nat} (h : PageHead) (hx : x ≠ b) :
    (s.setHead b h).head x = s.head x := if_neg hx

theorem setHead_next {prev : Option Nat} {b : Nat} (h : PageHead) (hp : prev ≠ some b) :
    (s.setHead b h).next prev = s.next prev := by
  cases prev with
  | none => rfl
  | some p => exact congrArg PageHead.next (s.setHead_ne h fun hpb => hp (hpb ▸ rfl))

@[simp] theorem setNext_next (prev : Option Nat) (b : Nat) :
    (s.setNext prev b).next prev = b := by
  cases prev with
  | none => rfl
  | some p => exact congrArg PageHead.next (s.setHead_self p _)

theorem setNext_head (prev : Option Nat) (b : Nat) {x : Nat} (hx : prev ≠ some x) :
    (s.setNext prev b).head x = s.head x := by
  cases prev with
  | none => rfl
  | some p => exact s.setHead_ne _ fun h => hx (h ▸ rfl)

end PageHeap

theorem Listed.congr {s s' : PageHeap} {p : Nat} {l : List Extent} (h : Listed s p l)
    (heq : ∀ e ∈ l, s'.head e.start = s.head e.start) : Listed s' p l := by
  induction l generalizing p with
  | nil => exact h
  | cons e l ih =>
    obtain ⟨rfl, hne, hpage, htail⟩ := h
    have he := heq e List.mem_cons_self
    refine ⟨rfl, hne, he ▸ hpage, ?_⟩
    rw [he]
    exact ih htail fun f hf => heq f (List.mem_cons_of_mem _ hf)

theorem Listed.setHead {s : PageHeap} {p n : Nat} {l : List Extent} (h : Listed s p l)
    (hn : ∀ e ∈ l, e.start ≠ n) (hd : PageHead) : Listed (s.setHead n hd) p l :=
  h.congr fun e he => s.setHead_ne hd (hn e he)

theorem Listed.setNext {s : PageHeap} {p : Nat} {l : List Extent} (h : Listed s p l)
    {prev : Option Nat} (hprev : ∀ b, prev = some b → ∀ e ∈ l, b < e.start) (b : Nat) :
    Listed (s.setNext prev b) p l :=
  h.congr fun e he => s.setNext_head prev b fun heq =>
    absurd (hprev e.start heq e he) (Nat.lt_irrefl _)

/-- A loop that stands at `prev` has left alone what comes before, and the page number
there. -/
structure Frame (s s' : PageHeap) (prev : Option Nat) : Prop where
  list : prev ≠ none → s'.rtPageList = s.rtPageList
  before : ∀ b, prev = some b → ∀ x < b, s'.head x = s.head x
  page : ∀ b, prev = some b → (s'.head b).page = (s.head b).page

theorem frame_setNext (s : PageHeap) (prev : Option Nat) (b : Nat) :
    Frame s (s.setNext prev b) prev where
  list h := by
    cases prev with
    | none => exact absurd rfl h
    | some p => rfl
  before p hp x hx := s.setNext_head prev b fun h => by
    rw [hp] at h
    exact absurd (Option.some.inj h) (Nat.ne_of_gt hx)
  page p hp := by
    subst hp
    change ((s.setHead p _).head p).page = _
    rw [PageHeap.setHead_self]

theorem frame_setHead (s : PageHeap) {prev : Option Nat} {n : Nat}
    (hn : ∀ b, prev = some b → b < n) (h : PageHead) : Frame s (s.setHead n h) prev where
  list _ := rfl
  before b hb _ hx := s.setHead_ne h (Nat.ne_of_lt (Nat.lt_trans hx (hn b hb)))
  page b hb := congrArg PageHead.page (s.setHead_ne h (Nat.ne_of_lt (hn b hb)))

theorem Frame.trans {s s' s'' : PageHeap} {prev : Option Nat} (h : Frame s s' prev)
    (h' : Frame s' s'' prev) : Frame s s'' prev where
  list hp := (h'.list hp).trans (h.list hp)
  before b hb x hx := (h'.before b hb x hx).trans (h.before b hb x hx)
  page b hb := (h'.page b hb).trans (h.page b hb)

/-- What the loop does behind the first extent, it does behind `prev`. -/
theorem Frame.step {s s' : PageHeap} {prev : Option Nat} {e : Extent} {l l' : List Extent}
    (hlisted : Listed s (s.next prev) (e :: l)) (hprev : ∀ b, prev = some b → b < e.start)
    (h : Frame s s' (some e.start)) (hl' : Listed s' (s'.next (some e.start)) l') :
    Frame s s' prev ∧ Listed s' (s'.next prev) (e :: l') := by
  obtain ⟨hstart, hne, hpage, -⟩ := hlisted
  have hlist := h.list (by simp)
  have hbefore := h.before e.start rfl
  have hsame := h.page e.start rfl
  have hnext : s'.next prev = s.next prev := by
    cases prev with
    | none => exact hlist
    | some b => exact congrArg PageHead.next (hbefore b (hprev b rfl))
  refine ⟨⟨fun _ => hlist, fun b hb x hx => ?_, fun b hb => ?_⟩, ?_⟩
  · exact hbefore x (Nat.lt_trans hx (hprev b hb))
  · rw [hbefore b (hprev b hb)]
  · rw [hnext, hstart]
    exact ⟨rfl, hne, hsame.trans (hstart ▸ hpage), hl'⟩

/-- The loop of `rt_page_alloc` is `takeFirst`. -/
theorem allocLoop_spec (npages : Nat) {l : List Extent} {fuel : Nat} (hfuel : l.length < fuel)
    {s : PageHeap} {prev : Option Nat} (hl : Listed s (s.next prev) l) (hsep : Separated l)
    (hprev : ∀ b, prev = some b → ∀ e ∈ l, b < e.start) :
    match takeFirst npages l with
    | none => allocLoop npages fuel s prev = some (s, 0)
    | some (start, l') => ∃ s', allocLoop npages fuel s prev = some (s', start) ∧
        Frame s s' prev ∧ Listed s' (s'.next prev) l' := by
  induction l generalizing fuel prev with
  | nil =>
    obtain ⟨fuel, rfl⟩ : ∃ k, fuel = k + 1 := ⟨fuel - 1, by simp at hfuel; omega⟩
    exact if_pos hl
  | cons e l ih =>
    obtain ⟨fuel, rfl⟩ : ∃ k, fuel = k + 1 := ⟨fuel - 1, by simp at hfuel; omega⟩
    obtain ⟨hpos, hgap, htail⟩ := hsep
    have hl' := hl
    obtain ⟨hstart, hne, hpage, hrest⟩ := hl
    have hpe : ∀ b, prev = some b → b < e.start := fun b hb => hprev b hb e List.mem_cons_self
    rw [hstart] at hpage hrest
    rw [takeFirst, allocLoop, hstart]
    simp only [hne, if_false, hpage]
    have hpl : ∀ b, prev = some b → ∀ f ∈ l, b < f.start := fun b hb f hf =>
      hprev b hb f (List.mem_cons_of_mem _ hf)
    by_cases hlt : npages < e.len
    · simp only [hlt, if_true]
      have hn : ∀ b, prev = some b → b < e.start + npages := fun b hb =>
        Nat.lt_of_lt_of_le (hpe b hb) (Nat.le_add_right _ _)
      refine ⟨_, rfl, (frame_setHead s hn _).trans (frame_setNext _ prev _), ?_⟩
      rw [PageHeap.setNext_next]
      refine ⟨rfl, by dsimp only; omega, ?_, ?_⟩
      · rw [PageHeap.setNext_head _ _ _ fun hb => absurd (hn _ hb) (Nat.lt_irrefl _),
          PageHeap.setHead_self]
      · rw [PageHeap.setNext_head _ _ _ fun hb => absurd (hn _ hb) (Nat.lt_irrefl _),
          PageHeap.setHead_self]
        refine (hrest.setHead (fun f hf => ?_) _).setNext hpl _
        have := hgap f hf
        simp only [Extent.stop] at this
        omega
    · simp only [hlt, if_false]
      by_cases heq : e.len = npages
      · simp only [heq, if_true]
        refine ⟨_, rfl, frame_setNext s prev _, ?_⟩
        rw [PageHeap.setNext_next]
        exact hrest.setNext hpl _
      · simp only [heq, if_false]
        have hbehind : ∀ b, some e.start = some b → ∀ f ∈ l, b < f.start := by
          intro b hb f hf
          obtain rfl := Option.some.inj hb
          have := hgap f hf
          simp only [Extent.stop] at this
          omega
        have hrest' : Listed s (s.next (some e.start)) l := hrest
        have hrec := ih (Nat.lt_of_succ_lt_succ hfuel) hrest' htail hbehind
        cases ht : takeFirst npages l with
        | none =>
          rw [ht] at hrec
          exact hrec
        | some result =>
          rw [ht] at hrec
          obtain ⟨s', hs', hframe, hlisted⟩ := hrec
          obtain ⟨hframe', hlisted'⟩ := hframe.step hl' hpe hlisted
          exact ⟨s', hs', hframe', hlisted'⟩

theorem linkRun_spec (s : PageHeap) {prev : Option Nat} {r : Extent} {l : List Extent}
    (hr : r.start ≠ 0) (hl : Listed s (s.next prev) l)
    (hprev : ∀ b, prev = some b → b < r.start ∧ ∀ e ∈ l, b < e.start)
    (hne : ∀ e ∈ l, e.start ≠ r.start) :
    Frame s (linkRun s prev (s.next prev) r.start r.len) prev ∧
      Listed (linkRun s prev (s.next prev) r.start r.len)
        ((linkRun s prev (s.next prev) r.start r.len).next prev) (r :: l) := by
  have hn : prev ≠ some r.start := fun hb => absurd (hprev _ hb).1 (Nat.lt_irrefl _)
  refine ⟨(frame_setHead s (fun b hb => (hprev b hb).1) _).trans (frame_setNext _ prev _), ?_⟩
  unfold linkRun
  rw [PageHeap.setNext_next]
  refine ⟨rfl, hr, ?_, ?_⟩
  · rw [PageHeap.setNext_head _ _ _ hn, PageHeap.setHead_self]
  · rw [PageHeap.setNext_head _ _ _ hn, PageHeap.setHead_self]
    exact (hl.setHead hne _).setNext (fun b hb => (hprev b hb).2) _

/-- The loop of `rt_page_free` is `giveBack`; its assertions do not fail. -/
theorem freeLoop_spec {r : Extent} (hr : r.start ≠ 0) (hlen : r.len ≠ 0) {l : List Extent}
    {fuel : Nat} (hfuel : l.length < fuel) {s : PageHeap} {prev : Option Nat}
    (hl : Listed s (s.next prev) l) (hsep : Separated l) (hapart : ∀ e ∈ l, e.Apart r)
    (hprev : ∀ b, prev = some b → b < r.start ∧ ∀ e ∈ l, b < e.start) :
    ∃ s', freeLoop r.start r.len fuel s prev = some s' ∧ Frame s s' prev ∧
      Listed s' (s'.next prev) (giveBack r l) := by
  induction l generalizing fuel prev with
  | nil =>
    obtain ⟨fuel, rfl⟩ : ∃ k, fuel = k + 1 := ⟨fuel - 1, by simp at hfuel; omega⟩
    have hlink := linkRun_spec s hr hl hprev fun e he => by cases he
    exact ⟨_, if_pos hl, hlink⟩
  | cons e l ih =>
    obtain ⟨fuel, rfl⟩ : ∃ k, fuel = k + 1 := ⟨fuel - 1, by simp at hfuel; omega⟩
    obtain ⟨hpos, hgap, htail⟩ := hsep
    have hl' := hl
    obtain ⟨hstart, hne, hpage, hrest⟩ := hl
    have he := hapart e List.mem_cons_self
    have hpe : ∀ b, prev = some b → b < e.start := fun b hb =>
      (hprev b hb).2 e List.mem_cons_self
    have hpl : ∀ b, prev = some b → ∀ f ∈ l, b < f.start := fun b hb f hf =>
      (hprev b hb).2 f (List.mem_cons_of_mem _ hf)
    rw [hstart] at hpage hrest
    have hassert : ¬ (e.len = 0 ∨ ¬ (e.start > r.start ∨ e.start + e.len ≤ r.start)) := by
      simp only [Extent.Apart, Extent.stop] at he
      omega
    have hnp : prev ≠ some e.start := fun hb => absurd (hpe _ hb) (Nat.lt_irrefl _)
    unfold freeLoop giveBack
    simp only [hstart, hne, if_false, hpage, hassert]
    by_cases hjoin : e.start + e.len = r.start
    -- the run is joined to the extent before it, which becomes longer
    · rw [if_pos hjoin, if_pos (show e.stop = r.start from hjoin)]
      cases l with
      | nil =>
        have hnext : ¬ e.start + (e.len + r.len) = (s.head e.start).next := by
          rw [show (s.head e.start).next = 0 from hrest]
          omega
        rw [if_neg hnext]
        refine ⟨_, rfl, frame_setHead s hpe _, ?_⟩
        rw [PageHeap.setHead_next s _ hnp, hstart]
        exact ⟨rfl, hne, by simp, by simpa [Listed] using hrest⟩
      | cons f l =>
        obtain ⟨hfstart, hfne, hfpage, hfrest⟩ := hrest
        have hef : f.start ≠ e.start := by
          have := hgap f List.mem_cons_self
          simp only [Extent.stop] at this
          omega
        rw [hfstart] at hfpage hfrest
        dsimp only
        rw [hfstart]
        split
        -- and to the one behind it, which leaves the list
        · refine ⟨_, rfl, frame_setHead s hpe _, ?_⟩
          rw [PageHeap.setHead_next s _ hnp, hstart]
          refine ⟨rfl, hne, by simp [hfpage], ?_⟩
          simp only [PageHeap.setHead_self]
          refine hfrest.setHead (fun g hg => ?_) _
          have := hgap g (List.mem_cons_of_mem _ hg)
          simp only [Extent.stop] at this
          omega
        · refine ⟨_, rfl, frame_setHead s hpe _, ?_⟩
          rw [PageHeap.setHead_next s _ hnp, hstart]
          refine ⟨rfl, hne, by simp, ?_⟩
          simp only [PageHeap.setHead_self]
          have hf : Listed s f.start (f :: l) := ⟨rfl, hfne, hfpage, hfrest⟩
          refine hf.setHead (fun g hg => ?_) _
          have := hgap g hg
          simp only [Extent.stop] at this
          omega
    · rw [if_neg hjoin, if_neg (show ¬ e.stop = r.start from hjoin)]
      have hnr : prev ≠ some r.start := fun hb => absurd (hprev _ hb).1 (Nat.lt_irrefl _)
      by_cases hbehind : e.start = r.start + r.len
      -- the run is joined to the extent behind it, and takes its place
      · rw [if_pos hbehind, if_pos (show e.start = r.stop from hbehind)]
        refine ⟨_, rfl, (frame_setHead s (fun b hb => (hprev b hb).1) _).trans
          (frame_setNext _ prev _), ?_⟩
        rw [PageHeap.setNext_next]
        refine ⟨rfl, hr, ?_, ?_⟩
        · rw [PageHeap.setNext_head _ _ _ hnr, PageHeap.setHead_self]
        · rw [PageHeap.setNext_head _ _ _ hnr, PageHeap.setHead_self]
          refine (hrest.setHead (fun f hf => ?_) _).setNext hpl _
          have := hgap f hf
          simp only [Extent.stop] at this
          omega
      · rw [if_neg hbehind, if_neg (show ¬ e.start = r.stop from hbehind)]
        by_cases hlt : e.start > r.start + r.len
        -- the run stands alone, before the extent
        · rw [if_pos hlt, if_pos (show r.stop < e.start from hlt)]
          have hlink := linkRun_spec s hr hl' hprev fun f hf => by
            rcases List.mem_cons.mp hf with rfl | hf
            · omega
            · have := hgap f hf
              simp only [Extent.stop] at this
              omega
          rw [hstart] at hlink
          exact ⟨_, rfl, hlink⟩
        · rw [if_neg hlt, if_neg (show ¬ r.stop < e.start from hlt)]
          have hbefore : e.start < r.start := by
            simp only [Extent.Apart, Extent.stop] at he
            omega
          have hrest' : Listed s (s.next (some e.start)) l := hrest
          have hnext : ∀ b, some e.start = some b → b < r.start ∧ ∀ f ∈ l, b < f.start := by
            intro b hb
            obtain rfl := Option.some.inj hb
            refine ⟨hbefore, fun f hf => ?_⟩
            have := hgap f hf
            simp only [Extent.stop] at this
            omega
          obtain ⟨s', hs', hframe, hlisted⟩ := ih (Nat.lt_of_succ_lt_succ hfuel) hrest' htail
            (fun f hf => hapart f (List.mem_cons_of_mem _ hf)) hnext
          obtain ⟨hframe', hlisted'⟩ := hframe.step hl' hpe hlisted
          exact ⟨s', hs', hframe', hlisted'⟩

/-! ## Runs -/

/-- The pages the heap is given: inside the address space, and without the null page. -/
structure PageRegion where
  first : Nat
  npages : Nat
  first_pos : 0 < first
  npages_pos : 0 < npages
  fits : first + npages < pageLimit

/-- A page run is freed as it was obtained; its owner may write its pages. -/
inductive Event where
  | alloc (npages : Nat)
  | free (run : Extent)
  | write (page : Nat) (head : PageHead)

/-- The heap, and the runs that are handed out. -/
structure PageRun where
  heap : PageHeap
  owned : List Extent := []

/-- Only owned runs are freed, and only owned pages are written. -/
def Allowed (s : PageRun) : Event → Prop
  | .alloc _ => True
  | .free run => run ∈ s.owned
  | .write page _ => Covers s.owned page

instance (s : PageRun) (e : Event) : Decidable (Allowed s e) :=
  match e with
  | .alloc _ => inferInstanceAs (Decidable True)
  | .free run => inferInstanceAs (Decidable (run ∈ s.owned))
  | .write page _ => inferInstanceAs (Decidable (Covers s.owned page))

/-- The state after a call that returns. -/
def act (s : PageRun) : Event → Option PageRun
  | .alloc npages => (rtPageAlloc s.heap npages).map fun (heap, b) =>
    { heap := heap, owned := if b = 0 then s.owned else ⟨b, npages⟩ :: s.owned }
  | .free run => (rtPageFree s.heap run.start run.len).map fun heap =>
    { heap := heap, owned := s.owned.erase run }
  | .write page head => some { s with heap := s.heap.setHead page head }

def step (s : PageRun) (e : Event) : Option PageRun := if Allowed s e then act s e else none

def start (g : PageRegion) (heap : PageHeap) : Option PageRun :=
  (rtPageInit heap g.first g.npages).map fun heap => { heap := heap }

/-- The free runs are these, in order and not to be joined, and with the owned ones they
are the pages of the region. -/
structure Pages (g : PageRegion) (s : PageRun) (free : List Extent) : Prop where
  listed : Listed s.heap s.heap.rtPageList free
  sorted : Separated free
  nonempty : ∀ f ∈ s.owned, 0 < f.len
  owned : s.owned.Pairwise Extent.Apart
  apart : ∀ e ∈ free, ∀ f ∈ s.owned, e.Apart f
  all : ∀ x, g.first ≤ x ∧ x < g.first + g.npages ↔ Covers free x ∨ Covers s.owned x
  count : size free + size s.owned = g.npages

/-- The pages are accounted for, and every call that may be made returns. -/
def WellFormed (g : PageRegion) (s : PageRun) : Prop :=
  (∃ free, Pages g s free) ∧ ∀ e, Allowed s e → (act s e).isSome

section
variable {g : PageRegion} {s : PageRun} {free : List Extent}

theorem Pages.length_le (h : Pages g s free) : free.length < pageLimit + 1 := by
  have := h.sorted.length_le_size
  have := h.count
  have := g.fits
  omega

theorem Pages.owned_start (h : Pages g s free) {r : Extent} (hr : r ∈ s.owned) :
    r.start ≠ 0 := by
  have := (h.all r.start).mpr (.inr ⟨r, hr, Extent.contains_start (h.nonempty r hr)⟩)
  have := g.first_pos
  omega

theorem Pages.alloc (h : Pages g s free) (npages : Nat) :
    ∃ s', act s (.alloc npages) = some s' ∧ ∃ free, Pages g s' free := by
  simp only [act, rtPageAlloc]
  by_cases hn : npages = 0
  · simp only [hn, if_true]
    exact ⟨_, rfl, free, h⟩
  · simp only [hn, if_false]
    have hl : Listed s.heap (s.heap.next none) free := h.listed
    have hspec := allocLoop_spec npages h.length_le hl h.sorted fun b hb => by cases hb
    cases ht : takeFirst npages free with
    | none =>
      rw [ht] at hspec
      rw [hspec]
      exact ⟨_, rfl, free, h⟩
    | some result =>
      obtain ⟨start, rest⟩ := result
      rw [ht] at hspec
      obtain ⟨heap, hcall, -, hlisted⟩ := hspec
      have hpos := Nat.pos_of_ne_zero hn
      have htaken := takeFirst_spec hpos h.sorted ht
      obtain ⟨e, he, hle, hstop⟩ := htaken.within
      have hin : ∀ x, start ≤ x → x < start + npages → Covers free x := fun x hx hx' =>
        ⟨e, he, Nat.le_trans hle hx, Nat.lt_of_lt_of_le hx' hstop⟩
      have hstart : start ≠ 0 := by
        have := (h.all start).mpr (.inl (hin start (Nat.le_refl _) (by omega)))
        have := g.first_pos
        omega
      rw [hcall]
      refine ⟨_, rfl, rest, hlisted, htaken.separated, ?_, ?_, ?_, fun x => ?_, ?_⟩
      all_goals simp only [hstart, if_false]
      · intro f hf
        rcases List.mem_cons.mp hf with rfl | hf
        · exact hpos
        · exact h.nonempty f hf
      -- what is handed out was free, so it is apart from what is owned
      · refine List.pairwise_cons.mpr ⟨fun f hf => ?_, h.owned⟩
        have := h.apart e he f hf
        simp only [Extent.Apart, Extent.stop] at this hstop ⊢
        omega
      · intro e' he' f hf
        rcases List.mem_cons.mp hf with rfl | hf
        · exact htaken.apart e' he'
        · obtain ⟨e₀, he₀, hle₀, hstop₀⟩ := htaken.starts e' he'
          have := h.apart e₀ he₀ f hf
          simp only [Extent.Apart] at this ⊢
          omega
      · rw [h.all x, htaken.covers x, covers_cons, or_assoc]
      · have := h.count
        rw [size_cons]
        have := htaken.size
        dsimp only
        omega

theorem Pages.freed (h : Pages g s free) {r : Extent} (hr : r ∈ s.owned) :
    ∃ s', act s (.free r) = some s' ∧ ∃ free, Pages g s' free := by
  have hl : Listed s.heap (s.heap.next none) free := h.listed
  have hlen := h.nonempty r hr
  have hperm := List.perm_cons_erase hr
  obtain ⟨heap, hcall, -, hlisted⟩ := freeLoop_spec (h.owned_start hr) (Nat.ne_of_gt hlen)
    h.length_le hl h.sorted (fun e he => h.apart e he r hr) fun b hb => by cases hb
  have hnone : ¬ (r.start = 0 ∨ r.len = 0) := fun hor => hor.elim (h.owned_start hr) (by omega)
  obtain ⟨hsorted, -, hcovers, hsize⟩ := giveBack_spec hlen h.sorted
    fun e he => h.apart e he r hr
  have howned : (r :: s.owned.erase r).Pairwise Extent.Apart :=
    (hperm.pairwise_iff fun h => h.symm).mp h.owned
  obtain ⟨hrapart, howned'⟩ := List.pairwise_cons.mp howned
  simp only [act, rtPageFree, hnone, if_false, hcall]
  refine ⟨_, rfl, giveBack r free, hlisted, hsorted, ?_, howned', ?_, fun x => ?_, ?_⟩
  · exact fun f hf => h.nonempty f (List.mem_of_mem_erase hf)
  · intro e he f hf
    refine Extent.apart_of_disjoint (hsorted.pos he) (h.nonempty f (List.mem_of_mem_erase hf)) ?_
    intro x hx
    rcases (hcovers x).mp ⟨e, he, hx⟩ with ⟨e', he', hx'⟩ | hx'
    · exact (h.apart e' he' f (List.mem_of_mem_erase hf)).not_contains hx'
    · exact (hrapart f hf).not_contains hx'
  · rw [h.all x, hcovers x, covers_perm hperm x, covers_cons, or_assoc]
  · have hcount := h.count
    rw [size_perm hperm, size_cons] at hcount
    dsimp only
    omega

theorem Pages.write (h : Pages g s free) {page : Nat} (hpage : Covers s.owned page)
    (head : PageHead) : Pages g { s with heap := s.heap.setHead page head } free := by
  refine { h with listed := h.listed.setHead (fun e he heq => ?_) head }
  obtain ⟨f, hf, hx⟩ := hpage
  refine (h.apart e he f hf).not_contains ?_ hx
  exact heq ▸ Extent.contains_start (h.sorted.pos he)

theorem Pages.act (h : Pages g s free) {e : Event} (he : Allowed s e) :
    ∃ s', act s e = some s' ∧ ∃ free, Pages g s' free := by
  cases e with
  | alloc npages => exact h.alloc npages
  | free run => exact h.freed he
  | write page head => exact ⟨_, rfl, free, h.write he head⟩

theorem wellFormed_of_pages (h : ∃ free, Pages g s free) : WellFormed g s := by
  obtain ⟨free, hp⟩ := h
  refine ⟨⟨free, hp⟩, fun e he => ?_⟩
  obtain ⟨s', hs', -⟩ := hp.act he
  rw [hs']
  rfl

end

theorem start_pages (g : PageRegion) (heap : PageHeap) :
    ∃ s, start g heap = some s ∧ Pages g s [⟨g.first, g.npages⟩] := by
  have hfirst := Nat.ne_of_gt g.first_pos
  have hpages := Nat.ne_of_gt g.npages_pos
  have hempty : Listed { heap with rtPageList := 0 }
      (PageHeap.next { heap with rtPageList := 0 } none) [] := rfl
  obtain ⟨heap', hcall, -, hlisted⟩ := freeLoop_spec (r := ⟨g.first, g.npages⟩) hfirst hpages
    (Nat.succ_pos pageLimit) hempty trivial (fun e he => by cases he) fun b hb => by cases hb
  refine ⟨{ heap := heap' }, ?_, hlisted, ?_, ?_, List.Pairwise.nil, ?_, fun x => ?_, rfl⟩
  · simp only [start, rtPageInit, rtPageFree, hfirst, hpages, or_self, if_false, hcall,
      Option.map_some]
  · exact ⟨g.npages_pos, (fun f hf => by cases hf), trivial⟩
  · exact fun f hf => by cases hf
  · exact fun e _ f hf => by cases hf
  · rw [covers_cons]
    simp only [covers_nil, or_false]
    rfl

/-- After `rt_page_init`, whatever runs are obtained and freed, in every state the list of
free runs is sorted, joined and disjoint from the owned runs, which are disjoint from each
other; together they are the pages of the region, and every call returns. -/
theorem pages_throughout (g : PageRegion) (heap : PageHeap) :
    ∃ s, start g heap = some s ∧ ∀ es, Throughout step (WellFormed g) s es := by
  obtain ⟨s, hs, hpages⟩ := start_pages g heap
  have hkeep : ∀ s e s', (∃ free, Pages g s free) → step s e = some s' →
      ∃ free, Pages g s' free := by
    intro s e s' ⟨free, h⟩ hstep
    obtain ⟨he, hact⟩ := Option.ite_none_right_eq_some.mp hstep
    obtain ⟨t, ht, hfree⟩ := h.act he
    obtain rfl := Option.some.inj (ht.symm.trans hact)
    exact hfree
  exact ⟨s, hs, throughout_of_keep (fun _ => wellFormed_of_pages) hkeep ⟨_, hpages⟩⟩

end ControlRTT.Kernel.SlabPage
