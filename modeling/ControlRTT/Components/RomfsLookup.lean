import ControlRTT.Kernel.StringCompare

/-! # Lookups in the ROM file system

`components/dfs/filesystems/romfs/dfs_romfs.c`: `dfs_romfs_lookup` goes through the path and down
the tree in one loop. In a tree of valid entries it finds what the components of a path lead to,
the first entry of a name at each (`dfsRomfsLookup_spec`). A pointer into the path is what is left
of it. -/
namespace ControlRTT.Components.RomfsLookup
open Kernel.StringCompare

def romfsDirentFile : BitVec 32 := 0x00

def romfsDirentDir : BitVec 32 := 0x01

/-- `data` are the entries that a directory points to; the lookup does not read those of a file. -/
structure RomfsDirent where
  type : BitVec 32
  name : CStr
  data : Option (List RomfsDirent)
  size : BitVec 32

def slash : UInt8 := 0x2f

def checkDirent (dirent : RomfsDirent) : Int :=
  if (dirent.type ≠ romfsDirentFile ∧ dirent.type ≠ romfsDirentDir) ∨ dirent.size = -1 then -1
  else 0

/-- `while (*subpath_end && *subpath_end == '/') subpath_end ++;` -/
def skipSlashes : List UInt8 → List UInt8
  | [] => []
  | c :: rest => if c ≠ 0 ∧ c = slash then skipSlashes rest else c :: rest

/-- `while ((*subpath_end != '/') && *subpath_end) subpath_end ++;` -/
def skipName : List UInt8 → List UInt8
  | [] => []
  | c :: rest => if c ≠ slash ∧ c ≠ 0 then skipName rest else c :: rest

/-- How the search in a folder ends; `outside` has read past its entries. -/
inductive Search
  | outside
  | invalid
  | missing
  | found (dirent : RomfsDirent)

/-- The search in a folder, for the name that begins at `subpath` and has `len` characters. -/
def search (signed : Bool) (subpath : List UInt8) (len : Nat) :
    (size : Nat) → List RomfsDirent → Search
  | 0, _ => .missing
  | _ + 1, [] => .outside
  | size + 1, dirent :: rest =>
    if checkDirent dirent ≠ 0 then .invalid
    else if dirent.name.bytes.length = len ∧ rtStrncmp signed dirent.name.bytes subpath len = 0 then
      .found dirent
    else search signed subpath len size rest

/-- How the lookup ends: past the entries of a folder, with `NULL`, or with an entry and what it
stores at `size`. -/
inductive Lookup
  | outside
  | null
  | entry (dirent : RomfsDirent) (size : BitVec 32)

/-- The loop over the components, `fuel` times. -/
def lookupLoop (signed : Bool) : (fuel : Nat) → Option (List RomfsDirent) → BitVec 32 →
    (subpath subpathEnd : List UInt8) → Option Lookup
  | _, none, _, _, _ => some .null
  | 0, some _, _, _, _ => none
  | fuel + 1, some entries, direntSize, subpath, subpathEnd =>
    match search signed subpath (subpath.length - subpathEnd.length) direntSize.toNat entries with
    | .outside => some .outside
    | .invalid => some .null
    | .missing => some .null
    | .found dirent =>
      let subpath := skipSlashes subpathEnd
      if deref subpath = 0 then some (.entry dirent dirent.size)
      else if dirent.type = romfsDirentDir then
        lookupLoop signed fuel dirent.data dirent.size subpath (skipName subpath)
      -- `subpath` is not null: the path goes on behind a file
      else some .null

def dfsRomfsLookup (signed : Bool) (fuel : Nat) (rootDirent : RomfsDirent) (path : List UInt8) :
    Option Lookup :=
  if checkDirent rootDirent ≠ 0 then some .null
  else if deref path = slash ∧ deref path.tail = 0 then some (.entry rootDirent rootDirent.size)
  else
    let subpath := skipSlashes path
    lookupLoop signed fuel rootDirent.data rootDirent.size subpath (skipName subpath)

/-! ## Trees and paths -/

/-- A name between two slashes. -/
structure Component where
  bytes : List UInt8
  noNul : 0 ∉ bytes
  noSlash : slash ∉ bytes
  nonempty : bytes ≠ []

def RomfsDirent.entries (dirent : RomfsDirent) : List RomfsDirent := dirent.data.getD []

/-- A directory has as many entries as its size says, all valid, and each has a name. -/
inductive Valid : RomfsDirent → Prop
  | file {dirent : RomfsDirent} (type : dirent.type = romfsDirentFile) (size : dirent.size ≠ -1) :
    Valid dirent
  | dir {dirent : RomfsDirent} (type : dirent.type = romfsDirentDir) (size : dirent.size ≠ -1)
    (count : ∀ entries ∈ dirent.data, entries.length = dirent.size.toNat)
    (names : ∀ entry ∈ dirent.entries, slash ∉ entry.name.bytes ∧ entry.name.bytes ≠ [])
    (entries : ∀ entry ∈ dirent.entries, Valid entry) : Valid dirent

/-- What follows a component. -/
def behind (path : List Component) : List UInt8 := path.flatMap fun c => slash :: c.bytes

/-- The normalised absolute path of some components. -/
def pathOf : List Component → List UInt8
  | [] => [slash]
  | c :: path => behind (c :: path)

/-- The first entry of a name. -/
def RomfsDirent.child (dirent : RomfsDirent) (c : Component) : Option RomfsDirent :=
  dirent.entries.find? fun entry => decide (entry.name.bytes = c.bytes)

/-- The entry that a path leads to, component by component. -/
def walk (dirent : RomfsDirent) : List Component → Option RomfsDirent
  | [] => some dirent
  | c :: path =>
    if dirent.type = romfsDirentDir then (dirent.child c).bind fun entry => walk entry path
    else none

/-- What the lookup is to return. -/
def Lookup.ofWalk : Option RomfsDirent → Lookup
  | none => .null
  | some dirent => .entry dirent dirent.size

/-- Some component is behind a file, or missing. -/
def Broken (root : RomfsDirent) (path : List Component) : Prop :=
  ∃ before c after, path = before ++ c :: after ∧ ∃ dirent, walk root before = some dirent ∧
    (dirent.type ≠ romfsDirentDir ∨ ∀ entry ∈ dirent.entries, entry.name.bytes ≠ c.bytes)

section
variable {signed : Bool} {dirent : RomfsDirent} {c : Component} {path : List Component}
  {rest : List UInt8}

/-! ## Cursors -/

theorem skipSlashes_component (c : Component) (rest : List UInt8) :
    skipSlashes (c.bytes ++ rest) = c.bytes ++ rest := by
  cases hc : c.bytes with
  | nil => exact absurd hc c.nonempty
  | cons b bytes =>
    have hb : b ≠ slash := by
      intro h
      refine c.noSlash ?_
      rw [hc, h]
      exact List.mem_cons_self
    exact if_neg fun h => hb h.2

theorem skipSlashes_behind (c : Component) (path : List Component) :
    skipSlashes (behind (c :: path)) = c.bytes ++ behind path := by
  have hslash : slash ≠ 0 ∧ slash = slash := ⟨by decide, rfl⟩
  rw [behind, List.flatMap_cons, List.cons_append, skipSlashes, if_pos hslash]
  exact skipSlashes_component c _

theorem skipName_behind (path : List Component) : skipName (behind path) = behind path := by
  cases path with
  | nil => rfl
  | cons c path => exact if_neg fun h => h.1 rfl

theorem skipName_component (c : Component) (path : List Component) :
    skipName (c.bytes ++ behind path) = behind path := by
  have hnul := c.noNul
  have hslash := c.noSlash
  generalize c.bytes = bytes at hnul hslash ⊢
  induction bytes with
  | nil => exact skipName_behind path
  | cons b bytes ih =>
    have hb : b ≠ slash ∧ b ≠ 0 := ⟨fun h => hslash (h ▸ List.mem_cons_self),
      fun h => hnul (h ▸ List.mem_cons_self)⟩
    rw [List.cons_append, skipName, if_pos hb]
    exact ih (fun h => hnul (List.mem_cons_of_mem _ h)) fun h => hslash (List.mem_cons_of_mem _ h)

theorem noNul_behind (path : List Component) : 0 ∉ behind path := by
  intro h
  obtain ⟨c, -, hc⟩ := List.mem_flatMap.mp h
  rcases List.mem_cons.mp hc with hzero | hmem
  · exact absurd hzero (by decide)
  · exact c.noNul hmem

theorem deref_component (c : Component) (rest : List UInt8) : deref (c.bytes ++ rest) ≠ 0 := by
  cases hc : c.bytes with
  | nil => exact absurd hc c.nonempty
  | cons b bytes => exact fun h => c.noNul (hc ▸ List.mem_cons.mpr (.inl h.symm))

/-! ## Folders -/

theorem Valid.checkDirent (h : Valid dirent) : RomfsLookup.checkDirent dirent = 0 := by
  unfold RomfsLookup.checkDirent
  cases h with
  | file htype hsize => exact if_neg fun h => h.elim (fun hne => hne.1 htype) hsize
  | dir htype hsize => exact if_neg fun h => h.elim (fun hne => hne.2 htype) hsize

/-- The test of the search finds a name if it is the component. -/
theorem name_eq_iff (name : CStr) (c : Component) (hrest : 0 ∉ rest) :
    (name.bytes.length = c.bytes.length ∧
      rtStrncmp signed name.bytes (c.bytes ++ rest) c.bytes.length = 0) ↔
        name.bytes = c.bytes := by
  have hnoNul : 0 ∉ c.bytes ++ rest := fun h => (List.mem_append.mp h).elim c.noNul hrest
  rw [rtStrncmp_eq_zero name.noNul hnoNul, List.take_left']
  · constructor
    · rintro ⟨hlength, htake⟩
      rwa [← hlength, List.take_length] at htake
    · intro heq
      rw [heq]
      exact ⟨rfl, List.take_length⟩
  · rfl

theorem search_spec {entries : List RomfsDirent} (hvalid : ∀ entry ∈ entries, Valid entry)
    (c : Component) (hrest : 0 ∉ rest) :
    search signed (c.bytes ++ rest) c.bytes.length entries.length entries =
      match entries.find? fun entry => decide (entry.name.bytes = c.bytes) with
      | some entry => .found entry
      | none => .missing := by
  induction entries with
  | nil => rfl
  | cons first entries ih =>
    have hcheck := (hvalid first List.mem_cons_self).checkDirent
    rw [List.length_cons, search, if_neg (not_not_intro hcheck), List.find?_cons]
    by_cases hname : first.name.bytes = c.bytes
    · rw [if_pos ((name_eq_iff first.name c hrest).mpr hname), decide_eq_true hname]
    · rw [if_neg fun h => hname ((name_eq_iff first.name c hrest).mp h), decide_eq_false hname]
      exact ih fun entry h => hvalid entry (List.mem_cons_of_mem _ h)

theorem child_mem {entry : RomfsDirent} (h : dirent.child c = some entry) :
    entry ∈ dirent.entries :=
  List.mem_of_find?_eq_some h

theorem Valid.children (h : Valid dirent) (hdir : dirent.type = romfsDirentDir) :
    (∀ entries ∈ dirent.data, entries.length = dirent.size.toNat) ∧
      ∀ entry ∈ dirent.entries, Valid entry := by
  cases h with
  | file htype =>
    rw [htype] at hdir
    exact absurd hdir (by decide)
  | dir _ _ hcount _ hentries => exact ⟨hcount, hentries⟩

/-- A round of the loop takes the first entry of the name. -/
theorem lookupLoop_step (hdir : dirent.type = romfsDirentDir) (hvalid : Valid dirent) (fuel : Nat) :
    lookupLoop signed (fuel + 1) dirent.data dirent.size (c.bytes ++ behind path) (behind path) =
      match dirent.child c with
      | none => some .null
      | some entry =>
        if deref (skipSlashes (behind path)) = 0 then some (.entry entry entry.size)
        else if entry.type = romfsDirentDir then
          lookupLoop signed fuel entry.data entry.size (skipSlashes (behind path))
            (skipName (skipSlashes (behind path)))
        else some .null := by
  obtain ⟨hcount, hchildren⟩ := hvalid.children hdir
  unfold RomfsDirent.child
  cases hdata : dirent.data with
  | none =>
    rw [RomfsDirent.entries, hdata]
    rfl
  | some entries =>
    have hentries : dirent.entries = entries := by
      rw [RomfsDirent.entries, hdata]
      rfl
    rw [hentries] at hchildren ⊢
    rw [lookupLoop, List.length_append, Nat.add_sub_cancel, ← hcount entries hdata,
      search_spec hchildren c (noNul_behind _)]
    cases entries.find? fun entry => decide (entry.name.bytes = c.bytes) with
    | none => rfl
    | some entry => rfl

/-- By induction on the components: each round of the loop goes through one of them. -/
theorem lookupLoop_spec (hdir : dirent.type = romfsDirentDir) (hvalid : Valid dirent) {fuel : Nat}
    (hfuel : path.length < fuel) :
    lookupLoop signed fuel dirent.data dirent.size (c.bytes ++ behind path) (behind path) =
      some (.ofWalk (walk dirent (c :: path))) := by
  induction path generalizing dirent c fuel with
  | nil =>
    obtain ⟨fuel, rfl⟩ : ∃ k, fuel = k + 1 := ⟨fuel - 1, by omega⟩
    rw [lookupLoop_step hdir hvalid, walk, if_pos hdir]
    cases dirent.child c with
    | none => rfl
    | some entry => rfl
  | cons next path ih =>
    obtain ⟨fuel, rfl⟩ : ∃ k, fuel = k + 1 := ⟨fuel - 1, by omega⟩
    rw [List.length_cons] at hfuel
    rw [lookupLoop_step hdir hvalid, walk, if_pos hdir]
    cases hchild : dirent.child c with
    | none => rfl
    | some entry =>
      dsimp only
      rw [skipSlashes_behind, if_neg (deref_component next _), skipName_component]
      split
      · rename_i hentry
        exact ih hentry ((hvalid.children hdir).2 entry (child_mem hchild)) (by omega)
      · rename_i hentry
        rw [Option.bind_some, walk, if_neg hentry]
        rfl

/-! ## Where a path leads -/

theorem child_eq_none : dirent.child c = none ↔
    ∀ entry ∈ dirent.entries, entry.name.bytes ≠ c.bytes := by
  simp [RomfsDirent.child]

/-- The path leads nowhere exactly if it is broken. -/
theorem walk_eq_none_iff : walk dirent path = none ↔ Broken dirent path := by
  induction path generalizing dirent with
  | nil =>
    refine iff_of_false (fun h => by cases h) ?_
    rintro ⟨before, c, after, hpath, -⟩
    exact absurd hpath (by simp)
  | cons c path ih =>
    rw [walk]
    constructor
    · intro h
      split at h
      · rename_i hdir
        cases hchild : dirent.child c with
        | none => exact ⟨[], c, path, rfl, dirent, rfl, .inr (child_eq_none.mp hchild)⟩
        | some entry =>
          rw [hchild, Option.bind_some] at h
          obtain ⟨before, d, after, rfl, last, hlast, hbroken⟩ := ih.mp h
          refine ⟨c :: before, d, after, rfl, last, ?_, hbroken⟩
          rw [walk, if_pos hdir, hchild]
          exact hlast
      · rename_i hfile
        exact ⟨[], c, path, rfl, dirent, rfl, .inl hfile⟩
    · rintro ⟨before, d, after, hpath, last, hlast, hbroken⟩
      cases before with
      | nil =>
        obtain ⟨rfl, rfl⟩ := List.cons.inj hpath
        obtain rfl := Option.some.inj hlast
        rcases hbroken with hfile | hmissing
        · exact if_neg hfile
        · split
          · rw [child_eq_none.mpr hmissing]
            rfl
          · rfl
      | cons first before =>
        obtain ⟨rfl, rfl⟩ := List.cons.inj hpath
        rw [walk] at hlast
        split at hlast
        · rename_i hdir
          rw [if_pos hdir]
          obtain ⟨entry, hchild, hlast⟩ := Option.bind_eq_some_iff.mp hlast
          rw [hchild, Option.bind_some]
          exact ih.mpr ⟨before, d, after, rfl, last, hlast, hbroken⟩
        · cases hlast

end

/-- The lookup terminates, with the entry that the components of the path lead to and its size,
and with `NULL` exactly if a component is missing or behind a file. -/
theorem dfsRomfsLookup_spec (signed : Bool) {root : RomfsDirent}
    (hdir : root.type = romfsDirentDir) (hvalid : Valid root) (path : List Component) {fuel : Nat}
    (hfuel : path.length ≤ fuel) :
    dfsRomfsLookup signed fuel root (pathOf path) = some (.ofWalk (walk root path)) ∧
      (walk root path = none ↔ Broken root path) := by
  refine ⟨?_, walk_eq_none_iff⟩
  unfold dfsRomfsLookup
  rw [if_neg (not_not_intro hvalid.checkDirent)]
  cases path with
  | nil => rfl
  | cons c path =>
    have hlong : ¬ (deref (pathOf (c :: path)) = slash ∧ deref (pathOf (c :: path)).tail = 0) := by
      intro h
      exact deref_component c _ h.2
    rw [if_neg hlong]
    dsimp only
    rw [pathOf, skipSlashes_behind, skipName_component]
    exact lookupLoop_spec hdir hvalid hfuel

/-! ## The tree of `romfs.c` -/

def dummyTxt : CStr := ⟨[0x64, 0x75, 0x6d, 0x6d, 0x79, 0x2e, 0x74, 0x78, 0x74], by decide⟩

def dummyTxtDirent : RomfsDirent := ⟨romfsDirentFile, dummyTxt, none, 17⟩

def dummyDirent : RomfsDirent where
  type := romfsDirentDir
  name := ⟨[0x64, 0x75, 0x6d, 0x6d, 0x79], by decide⟩
  data := some [dummyTxtDirent]
  size := 1

def romfsRoot : RomfsDirent where
  type := romfsDirentDir
  name := ⟨[slash], by decide⟩
  data := some [dummyDirent, dummyTxtDirent]
  size := 2

theorem valid_dummyTxtDirent : Valid dummyTxtDirent := .file rfl (by decide)

theorem valid_dummyDirent : Valid dummyDirent := by
  refine .dir rfl (by decide) ?_ ?_ ?_
  · intro entries h
    obtain rfl := Option.some.inj h
    rfl
  · intro entry h
    obtain rfl := List.mem_singleton.mp h
    decide
  · intro entry h
    obtain rfl := List.mem_singleton.mp h
    exact valid_dummyTxtDirent

theorem valid_romfsRoot : Valid romfsRoot := by
  refine .dir rfl (by decide) ?_ ?_ ?_
  · intro entries h
    obtain rfl := Option.some.inj h
    rfl
  · intro entry h
    rcases List.mem_pair.mp h with rfl | rfl
    · decide
    · decide
  · intro entry h
    rcases List.mem_pair.mp h with rfl | rfl
    · exact valid_dummyDirent
    · exact valid_dummyTxtDirent

/-- `/dummy/dummy.txt` -/
theorem dfsRomfsLookup_dummy : dfsRomfsLookup true 2 romfsRoot
    (pathOf [⟨dummyDirent.name.bytes, by decide, by decide, by decide⟩,
      ⟨dummyTxt.bytes, by decide, by decide, by decide⟩]) = some (.entry dummyTxtDirent 17) :=
  (dfsRomfsLookup_spec true rfl valid_romfsRoot _ (by decide)).1

end ControlRTT.Components.RomfsLookup
