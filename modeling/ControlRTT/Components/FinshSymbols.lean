import ControlRTT.Kernel.StringCompare

/-! # The symbol tables of FinSH

A name is looked up in a table that is linked with the program, by `strcmp`, and then in the list of
what was appended while it ran, by `strncmp` over the length of the name that is looked for. There
an entry is also found by a beginning of its name (`lookups_iff`). The two functions of
`components/libc/compilers/minilibc/string.c` are those of the kernel. -/
namespace ControlRTT.Components.FinshSymbols
open Kernel.StringCompare

/-- `struct finsh_syscall`; the function is its address. -/
structure FinshSyscall where
  name : CStr
  func : BitVec 32
  deriving DecidableEq

/-- `struct finsh_sysvar`; the variable is its address. -/
structure FinshSysvar where
  name : CStr
  type : UInt8
  var : BitVec 32
  deriving DecidableEq

section
variable {Symbol : Type}

/-- The two loops of a lookup, over the table and over the list. -/
def lookup (signed : Bool) (symName : Symbol → CStr) (table list : List Symbol) (name : CStr) :
    Option Symbol :=
  match table.find? fun index => rtStrcmp signed (symName index).bytes name.bytes = 0 with
  | some index => some index
  | none => list.find? fun item =>
      rtStrncmp signed (symName item).bytes name.bytes name.bytes.length = 0

/-- What is found has the name, and something is found if anything has it. -/
structure Exact (symName : Symbol → CStr) (symbols : List Symbol) (name : CStr)
    (found : Option Symbol) : Prop where
  sound : ∀ symbol ∈ found, symbol ∈ symbols ∧ symName symbol = name
  complete : ∀ symbol ∈ symbols, symName symbol = name → found.isSome = true

/-- The table has the name, or the first item of the list that begins with it has it. -/
def NoLonger (symName : Symbol → CStr) (table list : List Symbol) (name : CStr) : Prop :=
  (∃ index ∈ table, symName index = name) ∨
    ∀ item ∈ list.find? fun item => name.bytes <+: (symName item).bytes, symName item = name

end

/-- The tables of a program and the lists `global_syscall_list` and `global_sysvar_list`. -/
structure Symbols where
  syscallTable : List FinshSyscall
  globalSyscallList : List FinshSyscall
  sysvarTable : List FinshSysvar
  globalSysvarList : List FinshSysvar

namespace Symbols

def finshSyscallLookup (signed : Bool) (s : Symbols) (name : CStr) : Option FinshSyscall :=
  lookup signed FinshSyscall.name s.syscallTable s.globalSyscallList name

def finshSysvarLookup (signed : Bool) (s : Symbols) (name : CStr) : Option FinshSysvar :=
  lookup signed FinshSysvar.name s.sysvarTable s.globalSysvarList name

/-- `finsh_syscall_append`, where there is memory. -/
def finshSyscallAppend (s : Symbols) (name : CStr) (func : BitVec 32) : Symbols :=
  { s with globalSyscallList := ⟨name, func⟩ :: s.globalSyscallList }

/-- `finsh_sysvar_append`, where there is memory. -/
def finshSysvarAppend (s : Symbols) (name : CStr) (type : UInt8) (var : BitVec 32) : Symbols :=
  { s with globalSysvarList := ⟨name, type, var⟩ :: s.globalSysvarList }

end Symbols

section
variable {signed : Bool} {Symbol : Type} {symName : Symbol → CStr} {table list : List Symbol}
  {name name' : CStr}

theorem CStr.ext_bytes (h : name.bytes = name'.bytes) : name = name' := by
  cases name
  cases name'
  cases h
  rfl

theorem rtStrcmp_eq_zero_iff : rtStrcmp signed name.bytes name'.bytes = 0 ↔ name = name' := by
  rw [rtStrcmp_eq_zero name.noNul name'.noNul]
  exact ⟨CStr.ext_bytes, fun h => h ▸ rfl⟩

/-- Over its length a name is the same as what it is the beginning of. -/
theorem rtStrncmp_eq_zero_iff :
    rtStrncmp signed name'.bytes name.bytes name.bytes.length = 0 ↔ name.bytes <+: name'.bytes := by
  rw [rtStrncmp_eq_zero name'.noNul name.noNul, List.take_length, List.prefix_iff_eq_take]
  exact eq_comm

theorem lookup_of_mem (signed : Bool) (list : List Symbol) {index : Symbol}
    (hmem : index ∈ table) (hname : symName index = name) :
    ∃ found, lookup signed symName table list name = some found ∧ found ∈ table ∧
      symName found = name := by
  unfold lookup
  cases htable : table.find? fun index =>
      decide (rtStrcmp signed (symName index).bytes name.bytes = 0) with
  | none =>
    have hne := List.find?_eq_none.mp htable index hmem
    rw [decide_eq_true_eq, rtStrcmp_eq_zero_iff] at hne
    exact absurd hname hne
  | some found =>
    have hfound := List.find?_some htable
    rw [decide_eq_true_eq, rtStrcmp_eq_zero_iff] at hfound
    exact ⟨found, rfl, List.mem_of_find?_eq_some htable, hfound⟩

theorem lookup_of_notMem (hnone : ∀ index ∈ table, symName index ≠ name) :
    lookup signed symName table list name =
      list.find? fun item => name.bytes <+: (symName item).bytes := by
  have htable : table.find? (fun index =>
      decide (rtStrcmp signed (symName index).bytes name.bytes = 0)) = none := by
    refine List.find?_eq_none.mpr fun index hmem => ?_
    rw [decide_eq_true_eq, rtStrcmp_eq_zero_iff]
    exact hnone index hmem
  have hitem : (fun item => decide (rtStrncmp signed (symName item).bytes name.bytes
      name.bytes.length = 0)) = fun item => decide (name.bytes <+: (symName item).bytes) :=
    funext fun item => decide_eq_decide.mpr rtStrncmp_eq_zero_iff
  rw [lookup, htable, hitem]

/-- A lookup is exact unless the list answers with a longer name. -/
theorem exact_lookup_iff (signed : Bool) (symName : Symbol → CStr) (table list : List Symbol)
    (name : CStr) : Exact symName (table ++ list) name (lookup signed symName table list name) ↔
      NoLonger symName table list name := by
  by_cases htable : ∃ index ∈ table, symName index = name
  · obtain ⟨index, hmem, hname⟩ := htable
    obtain ⟨found, hlookup, hfound, hfoundName⟩ :=
      lookup_of_mem signed list hmem hname
    refine iff_of_true ⟨fun symbol hsymbol => ?_, fun _ _ _ => ?_⟩ (.inl ⟨index, hmem, hname⟩)
    · rw [hlookup] at hsymbol
      obtain rfl := Option.some.inj hsymbol
      exact ⟨List.mem_append_left list hfound, hfoundName⟩
    · rw [hlookup]
      rfl
  · have hnone : ∀ index ∈ table, symName index ≠ name := fun index hmem hname =>
      htable ⟨index, hmem, hname⟩
    rw [lookup_of_notMem hnone]
    unfold NoLonger
    rw [or_iff_right htable]
    constructor
    · intro hexact item hitem
      exact (hexact.sound item hitem).2
    · intro hlist
      refine ⟨fun symbol hsymbol => ⟨?_, hlist symbol hsymbol⟩, fun symbol hmem hname => ?_⟩
      · exact List.mem_append_right table (List.mem_of_find?_eq_some hsymbol)
      · rw [List.find?_isSome]
        refine ⟨symbol, (List.mem_append.mp hmem).resolve_left fun h => hnone symbol h hname, ?_⟩
        rw [hname]
        exact decide_eq_true (List.prefix_refl _)

end

/-- Both lookups go by full names. -/
def ExactLookups (signed : Bool) (s : Symbols) (name : CStr) : Prop :=
  Exact FinshSyscall.name (s.syscallTable ++ s.globalSyscallList) name
      (s.finshSyscallLookup signed name) ∧
    Exact FinshSysvar.name (s.sysvarTable ++ s.globalSysvarList) name
      (s.finshSysvarLookup signed name)

/-- Both lookups go by full names exactly if, of each kind, the table has the name or the first item
of the list that begins with it has it. -/
theorem lookups_iff (signed : Bool) (s : Symbols) (name : CStr) :
    ExactLookups signed s name ↔
      NoLonger FinshSyscall.name s.syscallTable s.globalSyscallList name ∧
        NoLonger FinshSysvar.name s.sysvarTable s.globalSysvarList name :=
  and_congr (exact_lookup_iff signed _ _ _ name) (exact_lookup_iff signed _ _ _ name)

/-- `l` finds what was appended as `ls`. -/
theorem beginning_is_found : ¬ ∀ (signed : Bool) (s : Symbols) (name : CStr),
    ExactLookups signed s name := by
  intro h
  have hl := (h false (Symbols.finshSyscallAppend ⟨[], [], [], []⟩ ⟨[0x6C, 0x73], by decide⟩ 0)
    ⟨[0x6C], by decide⟩).1.sound ⟨⟨[0x6C, 0x73], by decide⟩, 0⟩ (by decide)
  exact absurd hl.2 (by decide)

end ControlRTT.Components.FinshSymbols
