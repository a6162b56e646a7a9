import ControlRTT.Lib.Runs
import Mathlib.Algebra.Order.Ring.Int
import Mathlib.Data.List.Nodup

/-! # Named semaphores and message queues

`sem_open`, `sem_close` and `sem_unlink` of `components/libc/pthreads/semaphore.c`, and their copies
in `mqueue.c`. Both keep a list of what has been opened and not been deleted. What is asked of them
is a registry where a name finds the object that it was opened with until it is unlinked. Here an
open with `O_CREAT` makes an object in any case, an object that is unlinked is found as long as
somebody has it open, a name is compared in its first `RT_NAME_MAX` characters, and
`posix_sem_find` compares it with the pointers of an entry. Each call does what the registry does
exactly if none of that matters (`registry_along_iff`). -/
namespace ControlRTT.Components.NamedIpc
open Lib.Runs

def rtNameMax : Nat := 8

/-- A string. -/
structure Name where
  chars : List UInt8
  noNul : 0 ∉ chars
  deriving DecidableEq

/-- The two copies of the registry. -/
inductive Copy
  | sem
  | mq
  deriving DecidableEq, Repr

inductive Errno
  | enoent
  | eexist
  | enfile
  deriving DecidableEq, Repr

inductive Reply
  | object (addr : Nat)
  | ok
  | failed (errno : Errno)
  deriving DecidableEq, Repr

/-- `struct posix_sem` and `struct mqdes`: where it is, the kernel object that it points to, and the
name that it was opened with. -/
structure Entry where
  addr : Nat
  object : Nat
  name : Name
  refcount : Nat
  unlinked : Bool
  deriving DecidableEq

/-- What the caller asks for. `rt_malloc` and the creation of the kernel object give an address, or
there is no memory. -/
inductive Event
  | open (name : Name) (creat excl : Bool) (block object : Option Nat)
  | close (addr : Nat)
  | unlink (name : Name)
  deriving DecidableEq

/-! ## The calls -/

/-- `rt_strncmp`, where it gives 0; a string ends at its first 0. -/
def strncmp : Nat → List UInt8 → List UInt8 → Bool
  | 0, _, _ => true
  | count + 1, cs, ct =>
    if cs.headD 0 ≠ ct.headD 0 then false
    else if cs.headD 0 = 0 then true
    else strncmp count cs.tail ct.tail

/-- The name of the kernel object, which `rt_strncpy` has copied. -/
def Entry.objectName (e : Entry) : List UInt8 := e.name.chars.take rtNameMax

/-- A pointer in memory. -/
def bytes (addr : Nat) : List UInt8 :=
  [UInt8.ofNat addr, UInt8.ofNat (addr >>> 8), UInt8.ofNat (addr >>> 16), UInt8.ofNat (addr >>> 24)]

/-- `posix_mq_find` -/
def posixMqFind (name : Name) : List Entry → Option Entry
  | [] => none
  | e :: l => if strncmp rtNameMax e.objectName name.chars then some e else posixMqFind name l

/-- `posix_sem_find`. The name that it looks at is at the address of the field `sem`: there are the
pointers `sem` and `next`. -/
def posixSemFind (name : Name) : List Entry → Option Entry
  | [] => none
  | e :: l =>
    let next := (l.head?.map (·.addr)).getD 0
    if strncmp rtNameMax (bytes e.object ++ bytes next) name.chars then some e
    else posixSemFind name l

def find : Copy → Name → List Entry → Option Entry
  | .sem => posixSemFind
  | .mq => posixMqFind

/-- A change of the one that is at an address. -/
def update {α : Type} (addr : α → Nat) (at' : Nat) (f : α → α) (l : List α) : List α :=
  l.map fun x => if addr x = at' then f x else x

/-- `posix_sem_delete` and `posix_mq_delete` -/
def posixDelete (l : List Entry) (addr : Nat) : List Entry :=
  l.eraseP (·.addr = addr)

/-- `sem_open` and `mq_open` -/
def posixOpen (copy : Copy) (l : List Entry) (name : Name) (creat excl : Bool)
    (block object : Option Nat) : List Entry × Reply :=
  if creat then
    if excl ∧ (find copy name l).isSome then (l, .failed .eexist)
    else
      match block with
      | none => (l, .failed .enfile)
      | some addr =>
        match object with
        | none => (l, .failed .enfile)
        | some object =>
          ({ addr, object, name, refcount := 1, unlinked := false } :: l, .object addr)
  else
    match find copy name l with
    | some e =>
      (update Entry.addr e.addr (fun x => { x with refcount := (x.refcount + 1) % 2 ^ 16 }) l,
        .object e.addr)
    | none => (l, .failed .enoent)

/-- `sem_close` and `mq_close`; `refcount` has 16 bits. -/
def posixClose (l : List Entry) (addr : Nat) : List Entry :=
  match l.find? (·.addr = addr) with
  | none => l
  | some e =>
    let refcount := (e.refcount + 2 ^ 16 - 1) % 2 ^ 16
    let l := update Entry.addr addr (fun x => { x with refcount }) l
    if refcount = 0 ∧ e.unlinked then posixDelete l addr else l

/-- `sem_unlink` and `mq_unlink` -/
def posixUnlink (copy : Copy) (l : List Entry) (name : Name) : List Entry × Reply :=
  match find copy name l with
  | some e =>
    let l := update Entry.addr e.addr (fun x => { x with unlinked := true }) l
    (if e.refcount = 0 then posixDelete l e.addr else l, .ok)
  | none => (l, .failed .enoent)

/-! ## What is asked of them -/

/-- An object that has not been freed, with how often it has been opened and closed. -/
structure Object where
  addr : Nat
  object : Nat
  name : Name
  opens : Nat
  closes : Nat
  unlinked : Bool
  deriving DecidableEq

namespace Registry

/-- The object that a name finds. -/
def linked (objects : List Object) (name : Name) : Option Object :=
  objects.find? fun o => o.name = name ∧ o.unlinked = false

/-- Freed when nobody has it open and it is unlinked. -/
def reap (objects : List Object) (addr : Nat) : List Object :=
  objects.filter fun o => ¬(o.addr = addr ∧ o.unlinked = true ∧ o.opens = o.closes)

/-- A name that finds an object opens that, unless it is to be a new one. -/
def open' (objects : List Object) (name : Name) (creat excl : Bool) (block object : Option Nat) :
    List Object × Reply :=
  match linked objects name with
  | some o =>
    if creat ∧ excl then (objects, .failed .eexist)
    else (update Object.addr o.addr (fun x => { x with opens := x.opens + 1 }) objects,
      .object o.addr)
  | none =>
    if creat then
      match block, object with
      | some addr, some object =>
        ({ addr, object, name, opens := 1, closes := 0, unlinked := false } :: objects,
          .object addr)
      | _, _ => (objects, .failed .enfile)
    else (objects, .failed .enoent)

def close (objects : List Object) (addr : Nat) : List Object :=
  reap (update Object.addr addr (fun x => { x with closes := x.closes + 1 }) objects) addr

def unlink (objects : List Object) (name : Name) : List Object × Reply :=
  match linked objects name with
  | some o =>
    (reap (update Object.addr o.addr (fun x => { x with unlinked := true }) objects) o.addr, .ok)
  | none => (objects, .failed .enoent)

end Registry

/-- What the list holds of an object. -/
def Object.entry (o : Object) : Entry where
  addr := o.addr
  object := o.object
  name := o.name
  refcount := o.opens - o.closes
  unlinked := o.unlinked

/-- The list of the code and the registry, which take the same calls. -/
structure System where
  list : List Entry := []
  objects : List Object := []
  deriving DecidableEq

namespace System

/-- A new block is where no entry is, and what is closed has been opened. -/
def Possible (s : System) : Event → Prop
  | .open _ _ _ block _ => ∀ addr ∈ block, ∀ e ∈ s.list, e.addr ≠ addr
  | .close addr => ∃ o ∈ s.objects, o.addr = addr ∧ o.closes < o.opens
  | .unlink _ => True

def next (copy : Copy) (s : System) : Event → System
  | .open name creat excl block object =>
    { list := (posixOpen copy s.list name creat excl block object).1
      objects := (Registry.open' s.objects name creat excl block object).1 }
  | .close addr => { list := posixClose s.list addr, objects := Registry.close s.objects addr }
  | .unlink name =>
    { list := (posixUnlink copy s.list name).1, objects := (Registry.unlink s.objects name).1 }

def reply (copy : Copy) (s : System) : Event → Reply
  | .open name creat excl block object => (posixOpen copy s.list name creat excl block object).2
  | .close _ => .ok
  | .unlink name => (posixUnlink copy s.list name).2

def wanted (s : System) : Event → Reply
  | .open name creat excl block object =>
    (Registry.open' s.objects name creat excl block object).2
  | .close _ => .ok
  | .unlink name => (Registry.unlink s.objects name).2

instance (s : System) : DecidablePred s.Possible
  | .open _ _ _ block _ =>
    inferInstanceAs (Decidable (∀ addr ∈ block, ∀ e ∈ s.list, e.addr ≠ addr))
  | .close addr => inferInstanceAs (Decidable (∃ o ∈ s.objects, o.addr = addr ∧ o.closes < o.opens))
  | .unlink _ => isTrue trivial

def step (copy : Copy) (s : System) (e : Event) : Option System :=
  if s.Possible e then some (s.next copy e) else none

/-- The call returns what the registry does, and the list then holds what has not been freed, with
`refcount` the opens less the closes. -/
def Meets (copy : Copy) (s : System) (e : Event) : Prop :=
  s.reply copy e = s.wanted e ∧ (s.next copy e).list = (s.next copy e).objects.map Object.entry

/-! ## The condition -/

/-- The entry that was made for a name and is not unlinked. -/
def linkedEntry (l : List Entry) (name : Name) : Option Entry :=
  l.find? fun e => e.name = name ∧ e.unlinked = false

/-- The find of the code comes to that entry. -/
def Finds (copy : Copy) (s : System) (name : Name) : Prop :=
  (find copy name s.list).map (·.addr) = (linkedEntry s.list name).map (·.addr)

/-- The call does not go wrong. -/
def Sound (copy : Copy) (s : System) : Event → Prop
  | .open name true true _ _ =>
    (find copy name s.list).isSome = (linkedEntry s.list name).isSome
  | .open name true false _ _ => linkedEntry s.list name = none
  | .open name false _ _ _ =>
    s.Finds copy name ∧ ∀ e ∈ find copy name s.list, e.refcount + 1 < 2 ^ 16
  | .close _ => True
  | .unlink name => s.Finds copy name

/-! ## The invariant -/

structure Inv (s : System) : Prop where
  list : s.list = s.objects.map Object.entry
  nodup : (s.objects.map (·.addr)).Nodup
  opened : ∀ o ∈ s.objects, o.closes ≤ o.opens ∧ o.opens - o.closes < 2 ^ 16

end System

section
variable {objects : List Object} {o : Object} {addr : Nat} {name : Name} {copy : Copy}
variable {l : List Entry} {e : Entry}

theorem mem_of_find (h : find copy name l = some e) : e ∈ l := by
  cases copy with
  | sem =>
    change posixSemFind name l = some e at h
    induction l with
    | nil => cases h
    | cons x l ih =>
      unfold posixSemFind at h
      dsimp only at h
      split at h
      · exact Option.some.inj h ▸ List.mem_cons_self
      · exact List.mem_cons_of_mem x (ih h)
  | mq =>
    change posixMqFind name l = some e at h
    induction l with
    | nil => cases h
    | cons x l ih =>
      unfold posixMqFind at h
      split at h
      · exact Option.some.inj h ▸ List.mem_cons_self
      · exact List.mem_cons_of_mem x (ih h)

theorem linkedEntry_map (objects : List Object) (name : Name) :
    System.linkedEntry (objects.map Object.entry) name =
      (Registry.linked objects name).map Object.entry :=
  List.find?_map

theorem mem_of_linked (h : Registry.linked objects name = some o) :
    o ∈ objects ∧ o.name = name ∧ o.unlinked = false := by
  have hp := List.find?_some h
  exact ⟨List.mem_of_find?_eq_some h, by simpa using hp⟩

/-- The only object at its address. -/
theorem eq_of_addr (hnodup : (objects.map (·.addr)).Nodup) {p : Object} (ho : o ∈ objects)
    (hp : p ∈ objects) (haddr : p.addr = o.addr) : p = o :=
  List.inj_on_of_nodup_map hnodup hp ho haddr

theorem update_entry {f : Entry → Entry} {g : Object → Object}
    (h : ∀ o ∈ objects, o.addr = addr → f o.entry = (g o).entry) :
    update Entry.addr addr f (objects.map Object.entry) =
      (update Object.addr addr g objects).map Object.entry := by
  unfold update
  rw [List.map_map, List.map_map]
  refine List.map_congr_left fun o ho => ?_
  by_cases haddr : o.addr = addr
  · simp only [Function.comp_apply]
    rw [if_pos haddr, if_pos (show o.entry.addr = addr from haddr)]
    exact h o ho haddr
  · simp only [Function.comp_apply]
    rw [if_neg haddr, if_neg (show ¬o.entry.addr = addr from haddr)]

theorem mem_update {g : Object → Object} {p : Object}
    (h : p ∈ update Object.addr addr g objects) :
    ∃ o ∈ objects, (o.addr = addr ∧ p = g o) ∨ (o.addr ≠ addr ∧ p = o) := by
  obtain ⟨o, ho, rfl⟩ := List.mem_map.mp h
  refine ⟨o, ho, ?_⟩
  by_cases haddr : o.addr = addr
  · exact .inl ⟨haddr, if_pos haddr⟩
  · exact .inr ⟨haddr, if_neg haddr⟩

theorem update_addr {g : Object → Object} (hg : ∀ o, (g o).addr = o.addr) :
    (update Object.addr addr g objects).map (·.addr) = objects.map (·.addr) := by
  unfold update
  rw [List.map_map]
  refine List.map_congr_left fun o _ => ?_
  simp only [Function.comp_apply]
  split
  · exact hg o
  · rfl

/-- An object that somebody has open, or that is not unlinked, is not freed. -/
theorem reap_of_not (h : ∀ o ∈ objects, o.addr = addr → ¬(o.unlinked = true ∧ o.opens = o.closes)) :
    Registry.reap objects addr = objects := by
  refine List.filter_eq_self.mpr fun o ho => ?_
  have hnot := h o ho
  simp only [decide_eq_true_eq]
  exact fun hall => hnot hall.1 hall.2

theorem posixDelete_entry (hnodup : (objects.map (·.addr)).Nodup)
    (h : ∀ o ∈ objects, o.addr = addr → o.unlinked = true ∧ o.opens = o.closes) :
    posixDelete (objects.map Object.entry) addr =
      (Registry.reap objects addr).map Object.entry := by
  unfold posixDelete Registry.reap
  induction objects with
  | nil => rfl
  | cons o objects ih =>
    obtain ⟨hnot, hrest⟩ := List.nodup_cons.mp hnodup
    have hlater := ih hrest fun p hp => h p (List.mem_cons_of_mem o hp)
    rw [List.map_cons, List.filter_cons]
    by_cases haddr : o.addr = addr
    · have hdead := h o List.mem_cons_self haddr
      have hpos : (fun e : Entry => decide (e.addr = addr)) o.entry = true := decide_eq_true haddr
      rw [List.eraseP_cons_of_pos (p := fun e : Entry => decide (e.addr = addr)) hpos,
        if_neg (by simp [haddr, hdead.1, hdead.2])]
      have hkeep : objects.filter
          (fun o => ¬(o.addr = addr ∧ o.unlinked = true ∧ o.opens = o.closes)) = objects := by
        refine reap_of_not fun p hp hp' => ?_
        exact absurd (List.mem_map.mpr ⟨p, hp, hp'.trans haddr.symm⟩) hnot
      rw [hkeep]
    · have hneg : ¬(fun e : Entry => decide (e.addr = addr)) o.entry = true :=
        fun heq => haddr (of_decide_eq_true heq)
      rw [List.eraseP_cons_of_neg (p := fun e : Entry => decide (e.addr = addr)) hneg,
        if_pos (by simp [haddr]), List.map_cons, hlater]

end

namespace System
variable {copy : Copy} {s : System} {e : Event} {o : Object} {addr : Nat} {name : Name}

theorem Inv.linkedEntry_eq (h : s.Inv) (name : Name) :
    linkedEntry s.list name = (Registry.linked s.objects name).map Object.entry := by
  rw [h.list]
  exact linkedEntry_map s.objects name

/-- What the code finds is what has been made for the name. -/
theorem Inv.find_eq (h : s.Inv) (hfinds : s.Finds copy name) :
    find copy name s.list = (Registry.linked s.objects name).map Object.entry := by
  unfold Finds at hfinds
  rw [h.linkedEntry_eq] at hfinds
  cases hfind : find copy name s.list with
  | none =>
    rw [hfind] at hfinds
    cases hlinked : Registry.linked s.objects name with
    | none => rfl
    | some o =>
      rw [hlinked] at hfinds
      cases hfinds
  | some e =>
    rw [hfind] at hfinds
    cases hlinked : Registry.linked s.objects name with
    | none =>
      rw [hlinked] at hfinds
      cases hfinds
    | some o =>
      rw [hlinked] at hfinds
      have hmem := mem_of_find hfind
      rw [h.list] at hmem
      obtain ⟨p, hp, rfl⟩ := List.mem_map.mp hmem
      have haddr : p.addr = o.addr := Option.some.inj hfinds
      rw [eq_of_addr h.nodup (mem_of_linked hlinked).1 hp haddr]
      rfl

/-- A change that keeps where the objects are. -/
theorem Inv.change (h : s.Inv) (addr : Nat) {f : Entry → Entry} {g : Object → Object}
    (haddr : ∀ o, (g o).addr = o.addr)
    (hentry : ∀ o ∈ s.objects, o.addr = addr → f o.entry = (g o).entry)
    (hopened : ∀ o ∈ s.objects, o.addr = addr →
      (g o).closes ≤ (g o).opens ∧ (g o).opens - (g o).closes < 2 ^ 16) :
    Inv ⟨update Entry.addr addr f s.list, update Object.addr addr g s.objects⟩ where
  list := by
    rw [h.list]
    exact update_entry hentry
  nodup := by
    rw [update_addr haddr]
    exact h.nodup
  opened := fun p hp => by
    obtain ⟨o, ho, ⟨heq, rfl⟩ | ⟨-, rfl⟩⟩ := mem_update hp
    · exact hopened o ho heq
    · exact h.opened p ho

/-- The one that may be dead is deleted if it is. -/
theorem Inv.reap (h : s.Inv) {dead : Prop} [Decidable dead]
    (hdead : ∀ o ∈ s.objects, o.addr = addr →
      (dead ↔ o.unlinked = true ∧ o.opens = o.closes)) :
    Inv ⟨if dead then posixDelete s.list addr else s.list, Registry.reap s.objects addr⟩ where
  list := by
    dsimp only
    split
    · rename_i hyes
      rw [h.list]
      exact posixDelete_entry h.nodup fun o ho haddr => (hdead o ho haddr).mp hyes
    · rename_i hno
      rw [reap_of_not fun o ho haddr hall => hno ((hdead o ho haddr).mpr hall)]
      exact h.list
  nodup := h.nodup.sublist (List.filter_sublist.map _)
  opened := fun o ho => h.opened o (List.mem_of_mem_filter ho)

theorem Inv.entry_find (h : s.Inv) (ho : o ∈ s.objects) :
    s.list.find? (·.addr = o.addr) = some o.entry := by
  rw [h.list, List.find?_map]
  have hfound : (s.objects.find? ((fun e : Entry => e.addr = o.addr) ∘ Object.entry)).isSome :=
    List.find?_isSome.mpr ⟨o, ho, decide_eq_true rfl⟩
  obtain ⟨p, hp⟩ := Option.isSome_iff_exists.mp hfound
  have haddr := List.find?_some hp
  rw [Function.comp_apply, decide_eq_true_eq] at haddr
  obtain rfl := eq_of_addr h.nodup ho (List.mem_of_find?_eq_some hp) haddr
  exact congrArg (Option.map Object.entry) hp

theorem Inv.close (h : s.Inv) (hpossible : s.Possible (.close addr)) :
    (s.next copy (.close addr)).Inv := by
  obtain ⟨o, ho, rfl, hlt⟩ := hpossible
  have hopened := h.opened o ho
  have honly : ∀ p ∈ s.objects, p.addr = o.addr → p = o := fun p hp => eq_of_addr h.nodup ho hp
  have hcount : (o.opens - o.closes + 2 ^ 16 - 1) % 2 ^ 16 = o.opens - (o.closes + 1) := by omega
  change Inv ⟨posixClose s.list o.addr, Registry.close s.objects o.addr⟩
  unfold posixClose Registry.close
  rw [h.entry_find ho]
  dsimp only [Object.entry]
  rw [hcount]
  have hchange := h.change o.addr
    (f := fun x => { x with refcount := o.opens - (o.closes + 1) })
    (g := fun x => { x with closes := x.closes + 1 }) (fun _ => rfl)
    (fun p hp hp' => by rw [honly p hp hp']; rfl)
    fun p hp hp' => by rw [honly p hp hp']; dsimp only; omega
  refine hchange.reap fun p hp hp' => ?_
  · obtain ⟨q, hq, ⟨hq', rfl⟩ | ⟨hq', rfl⟩⟩ := mem_update hp
    · have hiff : o.opens - (o.closes + 1) = 0 ↔ o.opens = o.closes + 1 := by omega
      rw [honly q hq hq', hiff]
      exact and_comm
    · exact absurd hp' hq'

/-- `sem_unlink` and `mq_unlink`, where the find comes to what the name is linked to. -/
theorem Inv.unlink (h : s.Inv) (hfinds : s.Finds copy name) :
    (s.next copy (.unlink name)).Inv ∧ s.reply copy (.unlink name) = s.wanted (.unlink name) := by
  change Inv ⟨(posixUnlink copy s.list name).1, (Registry.unlink s.objects name).1⟩ ∧
    (posixUnlink copy s.list name).2 = (Registry.unlink s.objects name).2
  unfold posixUnlink Registry.unlink
  rw [h.find_eq hfinds]
  cases hlinked : Registry.linked s.objects name with
  | none => exact ⟨h, rfl⟩
  | some o =>
    have ho := (mem_of_linked hlinked).1
    have hopened := h.opened o ho
    have honly : ∀ p ∈ s.objects, p.addr = o.addr → p = o := fun p hp => eq_of_addr h.nodup ho hp
    refine ⟨?_, rfl⟩
    simp only [Option.map_some, Object.entry]
    have hchange := h.change o.addr (f := fun x => { x with unlinked := true })
      (g := fun x => { x with unlinked := true }) (fun _ => rfl) (fun _ _ _ => rfl)
      fun p hp _ => h.opened p hp
    refine hchange.reap fun p hp hp' => ?_
    obtain ⟨q, hq, ⟨hq', rfl⟩ | ⟨hq', rfl⟩⟩ := mem_update hp
    · have hiff : o.opens - o.closes = 0 ↔ o.opens = o.closes := by omega
      rw [honly q hq hq', hiff]
      exact ⟨fun heq => ⟨rfl, heq⟩, And.right⟩
    · exact absurd hp' hq'

/-- An object that the name is linked to is opened once more. -/
theorem Inv.openAgain (h : s.Inv) (ho : o ∈ s.objects) (hfits : o.entry.refcount + 1 < 2 ^ 16) :
    Inv ⟨update Entry.addr o.addr (fun x => { x with refcount := (x.refcount + 1) % 2 ^ 16 })
        s.list,
      update Object.addr o.addr (fun x => { x with opens := x.opens + 1 }) s.objects⟩ := by
  have hopened := h.opened o ho
  have hcount : (o.opens - o.closes + 1) % 2 ^ 16 = o.opens + 1 - o.closes := by
    change o.opens - o.closes + 1 < 2 ^ 16 at hfits
    omega
  refine h.change o.addr (fun _ => rfl) (fun p hp hp' => ?_) fun p hp hp' => ?_
  · rw [eq_of_addr h.nodup ho hp hp']
    dsimp only [Object.entry]
    rw [hcount]
  · rw [eq_of_addr h.nodup ho hp hp']
    change o.opens - o.closes + 1 < 2 ^ 16 at hfits
    dsimp only
    omega

/-- A new object. -/
theorem Inv.openNew (h : s.Inv) {object : Nat} (hnew : ∀ e ∈ s.list, e.addr ≠ addr) :
    Inv ⟨{ addr, object, name, refcount := 1, unlinked := false } :: s.list,
      { addr, object, name, opens := 1, closes := 0, unlinked := false } :: s.objects⟩ where
  list := by
    dsimp only
    rw [h.list]
    rfl
  nodup := by
    refine List.nodup_cons.mpr ⟨fun hmem => ?_, h.nodup⟩
    obtain ⟨o, ho, haddr⟩ := List.mem_map.mp hmem
    refine hnew o.entry ?_ haddr
    rw [h.list]
    exact List.mem_map_of_mem ho
  opened := fun o ho => by
    rcases List.mem_cons.mp ho with rfl | ho
    · exact ⟨Nat.zero_le 1, by dsimp only; omega⟩
    · exact h.opened o ho

/-- A name that is linked to nothing, with `O_CREAT`. -/
theorem Inv.create (h : s.Inv) {excl : Bool} {block object : Option Nat}
    (hpossible : s.Possible (.open name true excl block object))
    (hnone : Registry.linked s.objects name = none)
    (hfind : excl = true → find copy name s.list = none) :
    (s.next copy (.open name true excl block object)).Inv ∧
      s.reply copy (.open name true excl block object) =
        s.wanted (.open name true excl block object) := by
  change Inv ⟨(posixOpen copy s.list name true excl block object).1,
      (Registry.open' s.objects name true excl block object).1⟩ ∧
    (posixOpen copy s.list name true excl block object).2 =
      (Registry.open' s.objects name true excl block object).2
  have hnew : ¬(excl = true ∧ (find copy name s.list).isSome = true) := by
    rintro ⟨hexcl, hsome⟩
    rw [hfind hexcl] at hsome
    cases hsome
  unfold posixOpen Registry.open'
  rw [hnone, if_pos rfl, if_neg hnew]
  dsimp only
  rw [if_pos rfl]
  cases block with
  | none => exact ⟨h, rfl⟩
  | some addr =>
    cases object with
    | none => exact ⟨h, rfl⟩
    | some object => exact ⟨h.openNew (hpossible addr rfl), rfl⟩

theorem Inv.open (h : s.Inv) {creat excl : Bool} {block object : Option Nat}
    (hpossible : s.Possible (.open name creat excl block object))
    (hsound : s.Sound copy (.open name creat excl block object)) :
    (s.next copy (.open name creat excl block object)).Inv ∧
      s.reply copy (.open name creat excl block object) =
        s.wanted (.open name creat excl block object) := by
  have hlinkedEntry := h.linkedEntry_eq name
  match creat, excl with
  | true, false =>
    have hnone : linkedEntry s.list name = none := hsound
    rw [hlinkedEntry, Option.map_eq_none_iff] at hnone
    exact h.create hpossible hnone fun hexcl => by cases hexcl
  | true, true =>
    have hsame : (find copy name s.list).isSome = (linkedEntry s.list name).isSome := hsound
    rw [hlinkedEntry, Option.isSome_map] at hsame
    cases hlinked : Registry.linked s.objects name with
    | none =>
      rw [hlinked] at hsame
      exact h.create hpossible hlinked fun _ =>
        Option.isNone_iff_eq_none.mp (Option.isSome_eq_false_iff.mp hsame)
    | some o =>
      rw [hlinked] at hsame
      change Inv ⟨(posixOpen copy s.list name true true block object).1,
          (Registry.open' s.objects name true true block object).1⟩ ∧
        (posixOpen copy s.list name true true block object).2 =
          (Registry.open' s.objects name true true block object).2
      unfold posixOpen Registry.open'
      rw [hlinked, if_pos rfl, if_pos ⟨rfl, hsame⟩]
      exact ⟨h, rfl⟩
  | false, excl =>
    obtain ⟨hfinds, hfits⟩ : s.Finds copy name ∧
      ∀ e ∈ find copy name s.list, e.refcount + 1 < 2 ^ 16 := by cases excl <;> exact hsound
    have hfind := h.find_eq hfinds
    change Inv ⟨(posixOpen copy s.list name false excl block object).1,
        (Registry.open' s.objects name false excl block object).1⟩ ∧
      (posixOpen copy s.list name false excl block object).2 =
        (Registry.open' s.objects name false excl block object).2
    unfold posixOpen Registry.open'
    rw [hfind]
    cases hlinked : Registry.linked s.objects name with
    | none => exact ⟨h, rfl⟩
    | some o =>
      rw [hlinked] at hfind
      exact ⟨h.openAgain (mem_of_linked hlinked).1 (hfits o.entry hfind), rfl⟩

/-- A call that does not go wrong is met. -/
theorem Inv.next (h : s.Inv) (hpossible : s.Possible e) (hsound : s.Sound copy e) :
    (s.next copy e).Inv ∧ s.reply copy e = s.wanted e := by
  cases e with
  | «open» name creat excl block object => exact h.open hpossible hsound
  | close addr => exact ⟨h.close hpossible, rfl⟩
  | unlink name => exact h.unlink hsound

/-! ## A call that goes wrong -/

/-- A new object is not the one that the name is linked to. -/
theorem Inv.sound_create (h : s.Inv) {block object : Option Nat}
    (hpossible : s.Possible (.open name true false block object))
    (hmeets : s.Meets copy (.open name true false block object)) :
    s.Sound copy (.open name true false block object) := by
  change linkedEntry s.list name = none
  rw [h.linkedEntry_eq]
  cases hlinked : Registry.linked s.objects name with
  | none => rfl
  | some o =>
    have hreply : (posixOpen copy s.list name true false block object).2 =
        (Registry.open' s.objects name true false block object).2 := hmeets.1
    have hmem : o.entry ∈ s.list := by
      rw [h.list]
      exact List.mem_map_of_mem (mem_of_linked hlinked).1
    unfold posixOpen Registry.open' at hreply
    rw [hlinked] at hreply
    cases block with
    | none => simp at hreply
    | some addr =>
      cases object with
      | none => simp at hreply
      | some object =>
        have haddr : addr = o.addr := by simpa using hreply
        exact absurd haddr.symm (hpossible addr rfl o.entry hmem)

theorem Inv.sound_createExcl (h : s.Inv) {block object : Option Nat}
    (hmeets : s.Meets copy (.open name true true block object)) :
    s.Sound copy (.open name true true block object) := by
  have hreply : (posixOpen copy s.list name true true block object).2 =
      (Registry.open' s.objects name true true block object).2 := hmeets.1
  change (find copy name s.list).isSome = (linkedEntry s.list name).isSome
  rw [h.linkedEntry_eq, Option.isSome_map]
  unfold posixOpen Registry.open' at hreply
  cases hfind : find copy name s.list <;> cases hlinked : Registry.linked s.objects name <;>
    rw [hfind, hlinked] at hreply <;> cases block <;> cases object <;> simp_all

/-- The refcount of one that is opened again does not wrap. -/
theorem Inv.fits_of_list (h : s.Inv) (ho : o ∈ s.objects)
    (hlist : update Entry.addr o.addr (fun x => { x with refcount := (x.refcount + 1) % 2 ^ 16 })
      s.list = (update Object.addr o.addr (fun x => { x with opens := x.opens + 1 })
        s.objects).map Object.entry) : o.entry.refcount + 1 < 2 ^ 16 := by
  have hopened := h.opened o ho
  have hmem : Object.entry { o with opens := o.opens + 1 } ∈
      (update Object.addr o.addr (fun x => { x with opens := x.opens + 1 })
        s.objects).map Object.entry :=
    List.mem_map_of_mem (List.mem_map.mpr ⟨o, ho, if_pos rfl⟩)
  rw [← hlist, h.list] at hmem
  obtain ⟨x, hx, heq⟩ := List.mem_map.mp hmem
  obtain ⟨p, hp, rfl⟩ := List.mem_map.mp hx
  have haddr : p.addr = o.addr := by
    have hsame := congrArg Entry.addr heq
    split at hsame <;> exact hsame
  obtain rfl := eq_of_addr h.nodup ho hp haddr
  rw [if_pos (show p.entry.addr = p.addr from rfl)] at heq
  have hcount : (p.opens - p.closes + 1) % 2 ^ 16 = p.opens + 1 - p.closes :=
    congrArg Entry.refcount heq
  change p.opens - p.closes + 1 < 2 ^ 16
  omega

theorem Inv.sound_open (h : s.Inv) {excl : Bool} {block object : Option Nat}
    (hmeets : s.Meets copy (.open name false excl block object)) :
    s.Sound copy (.open name false excl block object) := by
  have hreply : (posixOpen copy s.list name false excl block object).2 =
      (Registry.open' s.objects name false excl block object).2 := hmeets.1
  have hlist : (posixOpen copy s.list name false excl block object).1 =
      (Registry.open' s.objects name false excl block object).1.map Object.entry := hmeets.2
  suffices hboth : s.Finds copy name ∧ ∀ e ∈ find copy name s.list, e.refcount + 1 < 2 ^ 16 by
    cases excl <;> exact hboth
  have hfinds : s.Finds copy name := by
    unfold Finds
    rw [h.linkedEntry_eq]
    unfold posixOpen Registry.open' at hreply
    cases hfind : find copy name s.list <;> cases hlinked : Registry.linked s.objects name <;>
      rw [hfind, hlinked] at hreply <;> simp_all [Object.entry]
  refine ⟨hfinds, fun e he => ?_⟩
  have hfind := h.find_eq hfinds
  rw [he] at hfind
  cases hlinked : Registry.linked s.objects name with
  | none =>
    rw [hlinked] at hfind
    cases hfind
  | some o =>
    rw [hlinked] at hfind
    obtain rfl := Option.some.inj hfind
    unfold posixOpen Registry.open' at hlist
    rw [he, hlinked] at hlist
    exact h.fits_of_list (mem_of_linked hlinked).1 hlist

/-- What is at another address stays where it is. -/
theorem mem_of_addr_ne {l : List Entry} {e : Entry} (he : e ∈ l) (haddr : e.addr ≠ addr)
    (f : Entry → Entry) (dead : Prop) [Decidable dead] :
    e ∈ if dead then posixDelete (update Entry.addr addr f l) addr
      else update Entry.addr addr f l := by
  have hmem : e ∈ update Entry.addr addr f l := List.mem_map.mpr ⟨e, he, if_neg haddr⟩
  split
  · exact (List.mem_eraseP_of_neg (by simpa using haddr)).mpr hmem
  · exact hmem

theorem Inv.sound_unlink (h : s.Inv) (hmeets : s.Meets copy (.unlink name)) :
    s.Sound copy (.unlink name) := by
  have hreply : (posixUnlink copy s.list name).2 = (Registry.unlink s.objects name).2 := hmeets.1
  have hlist : (posixUnlink copy s.list name).1 =
      (Registry.unlink s.objects name).1.map Object.entry := hmeets.2
  change (find copy name s.list).map (·.addr) = (linkedEntry s.list name).map (·.addr)
  rw [h.linkedEntry_eq]
  unfold posixUnlink Registry.unlink at hreply hlist
  cases hfind : find copy name s.list with
  | none =>
    cases hlinked : Registry.linked s.objects name with
    | none => rfl
    | some o =>
      rw [hfind, hlinked] at hreply
      cases hreply
  | some e =>
    cases hlinked : Registry.linked s.objects name with
    | none =>
      rw [hfind, hlinked] at hreply
      cases hreply
    | some o =>
      rw [hfind, hlinked] at hlist
      dsimp only at hlist
      obtain ⟨ho, -, hkept⟩ := mem_of_linked hlinked
      refine congrArg some ?_
      by_contra hne
      have hmem : o.entry ∈ s.list := by
        rw [h.list]
        exact List.mem_map_of_mem ho
      -- the one that the name is linked to is still as it was
      have hstays := mem_of_addr_ne hmem (Ne.symm hne) (fun x => { x with unlinked := true })
        (e.refcount = 0)
      rw [hlist] at hstays
      obtain ⟨p, hp, heq⟩ := List.mem_map.mp hstays
      obtain ⟨q, hq, ⟨-, rfl⟩ | ⟨hq', rfl⟩⟩ := mem_update (List.mem_of_mem_filter hp)
      · have hunlinked : true = o.unlinked := congrArg Entry.unlinked heq
        cases hunlinked.trans hkept
      · exact hq' (congrArg Entry.addr heq)

theorem Inv.sound (h : s.Inv) (hpossible : s.Possible e) (hmeets : s.Meets copy e) :
    s.Sound copy e := by
  match e with
  | .open name true false block object => exact h.sound_create hpossible hmeets
  | .open name true true block object => exact h.sound_createExcl hmeets
  | .open name false excl block object => exact h.sound_open hmeets
  | .close addr => trivial
  | .unlink name => exact h.sound_unlink hmeets

theorem inv_nil : Inv {} :=
  ⟨rfl, .nil, fun o ho => by cases ho⟩

end System

/-- All calls are met exactly if none goes wrong. -/
theorem registry_along_iff (copy : Copy) (es : List Event) :
    Along (System.step copy) (System.Meets copy) {} es ↔
      Along (System.step copy) (System.Sound copy) {} es := by
  refine along_iff_along (J := System.Inv) (fun s e s' hinv hsound hstep => ?_)
    (fun s e s' hinv hstep => ?_) System.inv_nil es
  · obtain ⟨hpossible, hnext⟩ := Option.ite_none_right_eq_some.mp hstep
    exact Option.some.inj hnext ▸ (hinv.next hpossible hsound).1
  · obtain ⟨hpossible, -⟩ := Option.ite_none_right_eq_some.mp hstep
    constructor
    · exact hinv.sound hpossible
    · intro hsound
      obtain ⟨hnext, hreply⟩ := hinv.next hpossible hsound
      exact ⟨hreply, hnext.list⟩

/-- Two opens of one name with `O_CREAT`. -/
def twoOpens : List Event :=
  [.open ⟨[97], by decide⟩ true false (some 0x20001000) (some 0x20001010),
    .open ⟨[97], by decide⟩ true false (some 0x20001100) (some 0x20001110)]

/-- They give two objects. -/
theorem created_twice : ¬ Along (System.step .sem) (System.Meets .sem) {} twoOpens ∧
    ¬ Along (System.step .mq) (System.Meets .mq) {} twoOpens := by
  constructor
  · intro h
    cases ((h _ rfl).2 _ rfl).1.1
  · intro h
    cases ((h _ rfl).2 _ rfl).1.1

end ControlRTT.Components.NamedIpc
