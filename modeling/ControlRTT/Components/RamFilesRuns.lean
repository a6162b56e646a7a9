import ControlRTT.Components.RamFiles

/-! # Calls to the RAM file system (dfs_ramfs.c, dfs_file.c)

A path leads to the file that was created there, with what has been written to it, in every state
of a run in which no file is renamed, no name is too long for its entry, and nobody takes the mount
point for a file (`agrees_throughout`). -/
namespace ControlRTT.Components.RamFilesRuns
open ControlRTT.Lib.Runs NormalizedPath DfsPath RamFiles
open MountTable (Path dfsNormalizePath dfsFilesystemLookup)

/-! ## The calls -/

structure Inv (m : Mounted) (st : State × Spec) : Prop where
  sound : st.1.fault = false
  names : Names m st.1.ramfs st.2.files st.2.contents st.2.fresh
  descs : Descs m st.1.ramfs st.1.fds st.2.fds

/-- A call has returned, and what it makes of the files is what it should. -/
def Answers (m : Mounted) (t : Spec) (e : Event) (out : Option (State × Except DfsError Nat)) :
    Prop :=
  ∃ s' result, out = some (s', result) ∧ Inv m (s', t.answer m e result)

section
variable {m : Mounted} {behind : Dirent → List Char} {s : State} {t : Spec} {p : Path}

theorem key_of_normalize {wd : Option CPath} {memory : Bool} {path : CPath}
    (h : dfsNormalizePath (wd.map CPath.chars) memory path.chars = some p) :
    m.key wd path = if m.Below p then some p else none := by
  have htrue : dfsNormalizePath (wd.map CPath.chars) true path.chars = some p := by
    unfold dfsNormalizePath at h ⊢
    exact (if_pos rfl).trans (Option.ite_none_right_eq_some.mp h).2
  unfold Mounted.key
  rw [htrue, Option.filter_some]
  simp

theorem Inv.find (h : Inv m (s, t)) (hp : Normal p) (hb : m.Below p) :
    s.find m behind p = t.files p := by
  unfold State.find
  rw [(hb.name hp).1, Option.bind_some]
  exact h.names.lookup hp hb

/-- A call that fails changes nothing. -/
theorem Inv.fails (h : Inv m (s, t)) {e : Event} {error : DfsError} :
    Answers m t e (some (s, .error error)) :=
  ⟨s, _, rfl, h⟩

/-- A call to another file system answers as it likes. -/
theorem Inv.other (h : Inv m (s, t)) {e : Event} (hstep : ∀ n, t.step m e n = t)
    (result : Except DfsError Nat) : Answers m t e (some (s, result)) := by
  refine ⟨s, result, rfl, ?_⟩
  cases result with
  | error _ => exact h
  | ok n =>
    unfold Spec.answer
    dsimp only
    rw [hstep]
    exact h

theorem not_below_of_ne {i : Nat} (hlookup : dfsFilesystemLookup m.table p = some i)
    (hi : i ≠ m.index) : ¬ m.Below p := fun hb =>
  hi (Option.some.inj (hlookup.symm.trans hb.1))

theorem Inv.unlink (h : Inv m (s, t)) {u : Unlink} (hgood : Good m behind (s, t) (.unlink u)) :
    Answers m t (.unlink u) (dfsFileUnlink m behind s u) := by
  unfold dfsFileUnlink
  split
  · exact h.fails
  · rename_i fullpath hfull
    have hkey := key_of_normalize (m := m) hfull
    split
    · exact h.fails
    · rename_i i hlookup
      split
      · exact h.fails
      · rename_i hclosed
        split
        · rename_i hi
          subst hi
          obtain ⟨hopen, hmnt⟩ := hgood fullpath hfull hlookup (Bool.eq_false_iff.mpr hclosed)
          have hp := normal_of_lookup hfull hlookup
          have hb : m.Below fullpath := ⟨hlookup, hmnt⟩
          rw [if_pos hb] at hkey
          have hfind : dfsRamfsLookup behind s.ramfs _ = _ := h.names.lookup hp hb
          unfold dfsRamfsUnlink
          rw [m.pathAt_index, (hb.name hp).1, Option.getD_some, hfind]
          cases hfile : t.files fullpath with
          | none => exact h.fails
          | some d =>
            obtain ⟨-, hd, hname⟩ := (h.names.files fullpath d).mp hfile
            have hroot : d ≠ root := Nat.ne_of_gt (h.names.range d hd).1
            dsimp only
            rw [if_neg hroot]
            refine ⟨_, _, rfl, h.sound, ?_, ?_⟩
            · unfold Spec.answer Spec.step
              dsimp only
              rw [hkey]
              exact h.names.erase hfile
            · unfold Spec.answer Spec.step
              dsimp only
              rw [hkey]
              refine h.descs.frame fun j d' pos hj hd' => ⟨?_, rfl⟩
              refine (h.names.nodup.mem_erase_iff).mpr ⟨?_, hd'⟩
              rintro rfl
              exact h.descs.of_not_open hp hb hname hopen j pos hj
        · rename_i hi
          rw [if_neg (not_below_of_ne hlookup hi)] at hkey
          refine h.other (fun n => ?_) u.other
          unfold Spec.step
          dsimp only
          rw [hkey]
          rfl

theorem Inv.close (h : Inv m (s, t)) {c : Close} :
    Answers m t (.close c) (dfsFileClose m s c) := by
  unfold dfsFileClose
  split
  · rename_i file hfile
    split
    · exact h.fails
    · have hlt : c.fd < s.fds.length := by
        obtain ⟨hlt, -⟩ := List.getElem?_eq_some_iff.mp hfile
        exact hlt
      refine ⟨_, _, rfl, h.sound, h.names, ?_⟩
      exact h.descs.set hlt (fun j _ d pos _ hd => ⟨hd, rfl⟩) rfl fun d pos hnone => by cases hnone
  · exact h.fails

theorem Inv.rename (h : Inv m (s, t)) {r : Rename} (hgood : Good m behind (s, t) (.rename r)) :
    Answers m t (.rename r) (dfsFileRename m behind s r) := by
  unfold dfsFileRename
  split
  · rename_i oldfullpath newfullpath hold hnew
    split
    · rename_i hsame
      obtain ⟨hsome, hindex⟩ := hgood oldfullpath newfullpath hold hnew hsame
      obtain ⟨i, hlookup⟩ := Option.ne_none_iff_exists'.mp hsome
      rw [hlookup, Option.bind_some]
      split
      · rename_i hi
        subst hi
        obtain ⟨hmnt, hlast⟩ := hindex hlookup
        have hnewlookup := hsame.symm.trans hlookup
        have hp := normal_of_lookup hnew hnewlookup
        have hb : m.Below newfullpath := ⟨hnewlookup, hmnt⟩
        unfold dfsRamfsRename
        rw [m.pathAt_index, (hb.name hp).1, Option.bind_some, h.names.lookup hp hb]
        cases hfile : t.files newfullpath with
        | some d => exact h.fails
        | none =>
          obtain ⟨hmnt', hnone⟩ := hlast ((h.find hp hb).trans hfile)
          have hp' := normal_of_lookup hold hlookup
          have hb' : m.Below oldfullpath := ⟨hlookup, hmnt'⟩
          rw [h.find hp' hb'] at hnone
          dsimp only
          rw [(hb'.name hp').1, Option.map_some, Option.map_some, h.names.lookup hp' hb', hnone]
          exact h.fails
      · rename_i hi
        have hkey := key_of_normalize (m := m) hold
        rw [if_neg (not_below_of_ne hlookup hi)] at hkey
        refine h.other (fun n => ?_) r.other
        unfold Spec.step
        dsimp only
        rw [hkey]
    · exact h.fails
  · exact h.fails

theorem Inv.write (h : Inv m (s, t)) {w : Write} (hgood : Good m behind (s, t) (.write w)) :
    Answers m t (.write w) (dfsFileWrite m s w) := by
  unfold dfsFileWrite
  split
  · rename_i file hfile
    have hlt : w.fd < s.fds.length := (List.getElem?_eq_some_iff.mp hfile).1
    have hfd := h.descs.each w.fd
    rw [hfile] at hfd
    split
    · rename_i hfs
      obtain ⟨hwrap, hroom⟩ := hgood file hfile hfs
      rcases (if_pos hfs).mp hfd with ⟨hroot, hnone⟩ | ⟨hd, hpath, hsome, hsize, hpos⟩
      · obtain ⟨dirent, file', n, hwrite, hfs', hroot'⟩ := dfsRamfsWrite_root hroot hwrap
          (fun hle => hroom hroot hle) w.memory w.junk
        have hstep : t.write w n = t := by
          unfold Spec.write
          rw [hnone]
        have hother : ∀ d ∈ s.ramfs.list,
            (s.ramfs.setDirent root dirent).dirents d = s.ramfs.dirents d := fun d hd =>
          setDirent_of_ne (Nat.ne_of_gt (h.names.range d hd).1) _ _
        rw [hwrite]
        refine ⟨_, _, rfl, h.sound, ?_, ?_⟩
        · change Names m _ (t.write w n).files (t.write w n).contents (t.write w n).fresh
          rw [hstep]
          exact h.names.congr rfl rfl hother
        · change Descs m _ _ (t.write w n).fds
          rw [hstep, ← Function.update_eq_self w.fd t.fds, hnone]
          refine h.descs.set hlt (fun j _ d pos _ hd => ⟨hd, hother d hd⟩) ?_ fun d pos hsp => ?_
          · exact (if_pos (hfs'.trans hfs)).mpr (.inl ⟨hroot', rfl⟩)
          · cases hsp
      · obtain ⟨hdata, hlen⟩ := h.names.contents file.data hd
        have hsingle : ∀ j ≠ w.fd, ∀ pos', t.fds j ≠ some (file.data, pos') :=
          fun j hj pos' hj' => hj (h.descs.single j w.fd _ _ _ hj' hsome)
        rw [← hdata] at hlen
        rcases dfsRamfsWrite_file hd hsize hlen hpos hwrap w.memory w.junk with
          hwrite | ⟨new, hnew, hwrite⟩
        · have hstep : t.write w 0 = t := by
            unfold Spec.write
            rw [hsome]
            dsimp only
            rw [List.take_zero, overlay_nil, Function.update_eq_self, Nat.add_zero, ← hsome,
              Function.update_eq_self]
          rw [hwrite]
          refine ⟨_, _, rfl, h.sound, ?_, ?_⟩
          · change Names m _ (t.write w 0).files (t.write w 0).contents (t.write w 0).fresh
            rw [hstep]
            exact h.names
          · change Descs m _ _ (t.write w 0).fds
            rw [hstep, ← Function.update_eq_self w.fd t.fds, hsome]
            refine h.descs.set hlt (fun j _ d pos _ hd => ⟨hd, rfl⟩) (hsome ▸ hfd)
              fun d pos hsp => ?_
            obtain ⟨rfl, rfl⟩ := Prod.mk.inj (Option.some.inj hsp)
            exact hsingle
        · have hstep : t.write w w.buf.length =
              { t with
                contents := Function.update t.contents file.data new
                fds := Function.update t.fds w.fd
                  (some (file.data, file.pos + w.buf.length)) } := by
            unfold Spec.write
            rw [hsome]
            dsimp only
            rw [List.take_length, ← hdata, ← hnew]
          rw [hwrite]
          refine ⟨_, _, rfl, h.sound, ?_, ?_⟩
          · change Names m _ (t.write w _).files (t.write w _).contents (t.write w _).fresh
            rw [hstep]
            exact h.names.setData new
          · change Descs m _ _ (t.write w _).fds
            rw [hstep]
            refine h.descs.set hlt (fun j hj d pos hsp hd' => ⟨hd', ?_⟩)
              ((if_pos hfs).mpr (.inr ⟨hd, ?_, rfl, ?_, ?_⟩)) fun d pos hsp => ?_
            · refine setDirent_of_ne ?_ _ _
              rintro rfl
              exact hsingle j hj pos hsp
            · unfold Ramfs.fileName
              rw [setDirent_self]
              exact hpath
            · rw [setDirent_self]
            · change file.pos + w.buf.length ≤ new.length
              rw [hnew, length_overlay (by omega)]
              exact Nat.le_max_right _ _
            · obtain ⟨rfl, rfl⟩ := Prod.mk.inj (Option.some.inj hsp)
              exact hsingle
    · rename_i hfs
      have hnone : t.fds w.fd = none := (if_neg hfs).mp hfd
      refine h.other (fun n => ?_) w.other
      unfold Spec.step Spec.write
      dsimp only
      rw [hnone]
  · exact h.fails

/-- A descriptor of a file that has none. -/
theorem Inv.opened (h : Inv m (s, t)) {ramfs' : Ramfs} {i d pos : Nat} (hi : i < s.fds.length)
    (hsame : ∀ d' ∈ s.ramfs.list, d' ≠ d → d' ∈ ramfs'.list ∧
      ramfs'.dirents d' = s.ramfs.dirents d')
    (hd : d ∈ ramfs'.list) (hname : ramfs'.fileName d = m.nameOf p)
    (hnot : ∀ j pos', t.fds j ≠ some (d, pos')) (hpos : pos ≤ (ramfs'.dirents d).size) :
    Descs m ramfs'
      (s.fds.set i (some ⟨m.index, '/' :: m.nameOf p, d, (ramfs'.dirents d).size, pos⟩))
      (Function.update t.fds i (some (d, pos))) := by
  refine h.descs.set hi (fun j _ d' pos' hsp hd' => hsame d' hd' ?_)
    ((if_pos rfl).mpr (.inr ⟨hd, ?_, rfl, rfl, hpos⟩)) fun d' pos' hsp => ?_
  · rintro rfl
    exact hnot j pos' hsp
  · rw [hname]
  · obtain ⟨rfl, rfl⟩ := Prod.mk.inj (Option.some.inj hsp)
    exact fun j _ => hnot j

/-- The root is opened, if anything, as a directory. -/
theorem Inv.openRoot (h : Inv m (s, t)) {o : Open} (hlt : o.fd < s.fds.length)
    (hnone : t.fds o.fd = none) (hkey : m.key o.workingDirectory o.path = none)
    (hnospc : ¬ (o.flags.directory = true ∧ o.flags.creat = true)) :
    Answers m t (.open o) ((dfsRamfsOpen behind s.ramfs (some ['/']) o.flags o.direntMemory).map
      (s.opened o m.index ['/'])) := by
  have hlookup : dfsRamfsLookup behind s.ramfs ['/'] = some root := by
    unfold dfsRamfsLookup
    exact if_pos (by decide)
  unfold dfsRamfsOpen
  rw [if_neg hnospc, Option.map_some, Option.map_some, hlookup]
  dsimp only
  split
  · refine ⟨_, _, rfl, h.sound, ?_, ?_⟩
    · unfold Spec.answer Spec.step
      dsimp only [State.opened]
      rw [hkey]
      exact h.names
    · unfold Spec.answer Spec.step
      dsimp only [State.opened]
      rw [hkey, Option.elim_none, ← Function.update_eq_self o.fd t.fds, hnone]
      refine h.descs.set hlt (fun j _ d pos _ hd => ⟨hd, rfl⟩) ((if_pos rfl).mpr (.inl ⟨rfl, rfl⟩))
        fun d pos hsp => ?_
      cases hsp
  · rw [if_pos rfl]
    exact h.fails

/-- A file that is there is opened. -/
theorem Inv.reopened (h : Inv m (s, t)) {o : Open} {ramfs' : Ramfs} {contents' : Nat → List UInt8}
    {d : Nat} (hlt : o.fd < s.fds.length) (hkey : m.key o.workingDirectory o.path = some p)
    (hfile : t.files p = some d) (hnot : ∀ j pos, t.fds j ≠ some (d, pos))
    (hnames : Names m ramfs' t.files contents' t.fresh) (hlist : ramfs'.list = s.ramfs.list)
    (hsame : ∀ d' ≠ d, ramfs'.dirents d' = s.ramfs.dirents d')
    (hcontents : (if o.flags.trunc ∧ !o.flags.directory then Function.update t.contents d []
      else t.contents) = contents') :
    Answers m t (.open o) (some (s.opened o m.index ('/' :: m.nameOf p) (ramfs', .ok d))) := by
  obtain ⟨-, hd, hname⟩ := (hnames.files p d).mp hfile
  have hstep : t.step m (.open o) o.fd = { t with
      contents := contents'
      fds := Function.update t.fds o.fd
        (some (d, if o.flags.append then (contents' d).length else 0)) } := by
    unfold Spec.step
    dsimp only
    rw [hkey, Option.elim_some]
    unfold Spec.open
    rw [hfile]
    dsimp only
    rw [hcontents]
  obtain ⟨hdata, hsize⟩ := hnames.contents d hd
  refine ⟨_, _, rfl, h.sound, ?_, ?_⟩
  · change Names m _ (t.step m (.open o) o.fd).files (t.step m (.open o) o.fd).contents
      (t.step m (.open o) o.fd).fresh
    rw [hstep]
    exact hnames
  · change Descs m _ _ (t.step m (.open o) o.fd).fds
    rw [hstep, ← hsize]
    refine h.opened hlt (fun d' hd' hne => ⟨hlist ▸ hd', hsame d' hne⟩) hd hname hnot ?_
    split
    · exact Nat.le_refl _
    · exact Nat.zero_le _

/-- A file that is not there is created. -/
theorem Inv.created (h : Inv m (s, t)) {o : Open} (hlt : o.fd < s.fds.length) (hp : Normal p)
    (hb : m.Below p) (hkey : m.key o.workingDirectory o.path = some p) (hnul : nul ∉ p)
    (hfile : t.files p = none) (hshort : (m.nameOf p).length < nameMax) :
    Answers m t (.open o) (some (s.opened o m.index ('/' :: m.nameOf p)
      ((s.ramfs.insert ('/' :: m.nameOf p)).truncate o.flags s.ramfs.fresh,
        .ok s.ramfs.fresh))) := by
  have hname : nul ∉ m.nameOf p := fun hmem => by
    rw [(hb.name hp).2.2.2.1] at hnul
    exact hnul (List.mem_append_right _ (List.mem_cons_of_mem _ hmem))
  have hinsert := h.names.insert hp hb hname hshort hfile
  have hfresh : t.fresh = s.ramfs.fresh := h.names.fresh
  have hnames := hinsert.truncate (d := s.ramfs.fresh) o.flags
  have hcontents : (if o.flags.trunc then
      Function.update (Function.update t.contents t.fresh []) s.ramfs.fresh []
      else Function.update t.contents t.fresh []) = Function.update t.contents t.fresh [] := by
    split
    · rw [hfresh, Function.update_idem]
    · rfl
  have hstep : t.step m (.open o) o.fd =
      { files := Function.update t.files p (some t.fresh)
        contents := Function.update t.contents t.fresh []
        fresh := t.fresh + 1
        fds := Function.update t.fds o.fd (some (t.fresh, 0)) } := by
    unfold Spec.step
    dsimp only
    rw [hkey, Option.elim_some]
    unfold Spec.open
    rw [hfile]
  have hother : ∀ d' ∈ s.ramfs.list, d' ≠ s.ramfs.fresh →
      d' ∈ ((s.ramfs.insert ('/' :: m.nameOf p)).truncate o.flags s.ramfs.fresh).list ∧
      ((s.ramfs.insert ('/' :: m.nameOf p)).truncate o.flags s.ramfs.fresh).dirents d' =
        s.ramfs.dirents d' := by
    intro d' hd' hne
    rw [truncate_list, truncate_of_ne _ hne]
    exact ⟨List.mem_cons_of_mem _ hd', Function.update_of_ne hne _ _⟩
  have hnot : ∀ j pos, t.fds j ≠ some (s.ramfs.fresh, pos) := by
    intro j pos hj
    obtain ⟨hmem, -⟩ := h.descs.mem hj
    exact h.names.fresh_notMem hmem
  rw [hcontents] at hnames
  have hfound : Function.update t.files p (some t.fresh) p = some s.ramfs.fresh := by
    rw [Function.update_self, hfresh]
  obtain ⟨-, hd, hlast⟩ := (hnames.files p _).mp hfound
  have hsize := (hnames.contents _ hd).2
  rw [← hfresh, Function.update_self] at hsize
  refine ⟨_, _, rfl, h.sound, ?_, ?_⟩
  · change Names m _ (t.step m (.open o) o.fd).files (t.step m (.open o) o.fd).contents
      (t.step m (.open o) o.fd).fresh
    rw [hstep]
    exact hnames
  · have hpos : (if o.flags.append then
        (((s.ramfs.insert ('/' :: m.nameOf p)).truncate o.flags s.ramfs.fresh).dirents
          s.ramfs.fresh).size else 0) = 0 := by
      rw [← hfresh, hsize]
      exact ite_self 0
    change Descs m _ _ (t.step m (.open o) o.fd).fds
    rw [hstep, hfresh]
    dsimp only
    rw [hpos]
    exact h.opened hlt hother hd hlast hnot (Nat.zero_le _)

/-- A file is opened, or created. -/
theorem Inv.openFile (h : Inv m (s, t)) {o : Open} (hlt : o.fd < s.fds.length) (hp : Normal p)
    (hb : m.Below p) (hkey : m.key o.workingDirectory o.path = some p)
    (hopen : m.fdIsOpen s.fds o.workingDirectory true p = false)
    (hnul : nul ∉ p) (hshort : t.files p = none → o.flags.creat = true ∨ o.flags.wronly = true →
      o.flags.directory = false → o.direntMemory = true → (m.nameOf p).length < nameMax)
    (hnospc : ¬ (o.flags.directory = true ∧ o.flags.creat = true)) :
    Answers m t (.open o) ((dfsRamfsOpen behind s.ramfs (some ('/' :: m.nameOf p)) o.flags
      o.direntMemory).map (s.opened o m.index ('/' :: m.nameOf p))) := by
  unfold dfsRamfsOpen
  rw [if_neg hnospc, Option.map_some, Option.map_some, h.names.lookup hp hb]
  cases hfile : t.files p with
  | some d =>
    obtain ⟨-, hd, hname⟩ := (h.names.files p d).mp hfile
    have hroot : d ≠ root := Nat.ne_of_gt (h.names.range d hd).1
    have hnot := h.descs.of_not_open hp hb hname hopen
    dsimp only
    rw [if_neg hroot]
    split
    · rename_i hdirectory
      refine h.reopened hlt hkey hfile hnot h.names rfl (fun _ _ => rfl) ?_
      rw [hdirectory, if_neg (by simp)]
    · rename_i hdirectory
      refine h.reopened hlt hkey hfile hnot (h.names.truncate o.flags) (truncate_list _)
        (fun d' hne => truncate_of_ne _ hne) ?_
      rw [Bool.eq_false_iff.mpr hdirectory]
      simp
  | none =>
    dsimp only
    split
    · exact h.fails
    · rename_i hdirectory
      split
      · rename_i hcreate
        split
        · rename_i hmemory
          have hname := hshort hfile hcreate (Bool.eq_false_iff.mpr hdirectory) hmemory
          exact h.created hlt hp hb hkey hnul hfile hname
        · exact h.fails
      · exact h.fails

theorem Inv.open (h : Inv m (s, t)) {o : Open} (hfree : s.fds[o.fd]? = some none)
    (hgood : Good m behind (s, t) (.open o)) :
    Answers m t (.open o) (dfsFileOpen m behind s o) := by
  have hlt : o.fd < s.fds.length := (List.getElem?_eq_some_iff.mp hfree).1
  have hnone : t.fds o.fd = none := by
    have hfd := h.descs.each o.fd
    rw [hfree] at hfd
    exact hfd
  unfold dfsFileOpen
  split
  · exact h.fails
  · rename_i fullpath hfull
    have hkey := key_of_normalize (m := m) hfull
    split
    · exact h.fails
    · rename_i hclosed
      split
      · exact h.fails
      · rename_i i hlookup
        dsimp only
        split
        · rename_i hi
          subst hi
          obtain ⟨hopen, hpath, hshort⟩ :=
            hgood fullpath hfull hlookup (Bool.eq_false_iff.mpr hclosed)
          have hp := normal_of_lookup hfull hlookup
          by_cases hnospc : o.flags.directory = true ∧ o.flags.creat = true
          · unfold dfsRamfsOpen
            rw [if_pos hnospc]
            exact h.fails
          · have hmemory : o.pathMemory = true := by
              by_contra hfalse
              exact hnospc (hpath (Bool.eq_false_iff.mpr hfalse))
            rw [if_pos hmemory, fdPath_index]
            by_cases hmnt : fullpath = m.path
            · have hb : ¬ m.Below fullpath := fun hb => hb.2 hmnt
              have hsub : dfsSubdir m.path fullpath = none := if_pos (by rw [hmnt])
              rw [if_neg hb] at hkey
              rw [hsub]
              exact h.openRoot hlt hnone hkey hnospc
            · have hb : m.Below fullpath := ⟨hlookup, hmnt⟩
              rw [if_pos hb] at hkey
              rw [h.find hp hb, fdPath_index, (hb.name hp).1, Option.getD_some,
                dropWhile_nameOf hp hb] at hshort
              rw [(hb.name hp).1]
              refine h.openFile hlt hp hb hkey hopen (nul_notMem_normalize hfull)
                (fun hfile => hshort hfile hmnt) hnospc
        · rename_i hi
          rw [if_neg (not_below_of_ne hlookup hi)] at hkey
          split
          · exact h.fails
          · refine ⟨_, _, rfl, h.sound, ?_, ?_⟩
            · unfold Spec.answer Spec.step
              dsimp only
              rw [hkey]
              exact h.names
            · unfold Spec.answer Spec.step
              dsimp only
              rw [hkey, Option.elim_none, ← Function.update_eq_self o.fd t.fds, hnone]
              refine h.descs.set hlt (fun j _ d pos _ hd => ⟨hd, rfl⟩) ((if_neg hi).mpr rfl)
                fun d pos hsp => ?_
              cases hsp

end

/-! ## Runs -/

section
variable {m : Mounted} {behind : Dirent → List Char}

theorem inv_start (n : Nat) : Inv m (start n) where
  sound := rfl
  names := {
    nodup := List.nodup_nil
    range := fun _ hd => by cases hd
    pos := Nat.lt_succ_self _
    fresh := rfl
    terminated := fun _ hd => by cases hd
    files := fun p d => by
      constructor
      · rintro hnone
        cases hnone
      · rintro ⟨-, hd, -⟩
        cases hd
    contents := fun _ hd => by cases hd }
  descs := {
    each := fun i => by
      unfold FdOk
      split
      · rename_i file hfile
        have hmem := List.mem_of_getElem? hfile
        cases List.eq_of_mem_replicate hmem
      · rfl
    single := fun _ _ _ _ _ hnone => by cases hnone }

theorem Inv.agrees {st : State × Spec} (h : Inv m st) : Agrees m behind st where
  sound := h.sound
  find := fun wd path p hkey => by
    obtain ⟨hb, hp, -⟩ := key_eq_some hkey
    exact h.find hp hb
  contents := fun p f hfile => by
    obtain ⟨-, hf, -⟩ := (h.names.files p f).mp hfile
    obtain ⟨hdata, hsize⟩ := h.names.contents f hf
    unfold State.contents
    rw [hsize, ← hdata, List.take_length, hdata]
  terminated := h.names.terminated

/-- A good step keeps the invariant. -/
theorem Inv.step {st st' : State × Spec} {e : Event} (h : Inv m st) (hgood : Good m behind st e)
    (hstep : step m behind st e = some st') : Inv m st' := by
  obtain ⟨hpossible, hst⟩ := Option.ite_none_right_eq_some.mp hstep
  have hanswers : Answers m st.2 e (exec m behind st.1 e) := by
    cases e with
    | «open» o =>
      have hfree : st.1.fds[o.fd]? = some none := by
        unfold possible at hpossible
        obtain ⟨entry, hentry, hnone⟩ := (Option.any_eq_true _ _).mp hpossible
        rw [hentry, Option.isNone_iff_eq_none.mp hnone]
      exact Inv.open h hfree hgood
    | write w => exact Inv.write h hgood
    | close c => exact Inv.close h
    | unlink u => exact Inv.unlink h hgood
    | rename r => exact Inv.rename h hgood
  obtain ⟨s', result, hexec, hinv⟩ := hanswers
  rw [hexec] at hst
  exact Option.some.inj hst ▸ hinv

/-- Every path leads to the file that was created there, with what has been written to it, as long
as no step goes wrong. -/
theorem agrees_throughout (m : Mounted) (behind : Dirent → List Char) (n : Nat) (es : List Event)
    (h : Along (step m behind) (Good m behind) (start n) es) :
    Throughout (step m behind) (Agrees m behind) (start n) es :=
  throughout_of_along (fun _ hinv => hinv.agrees) (fun _ _ _ hinv hgood hstep =>
    hinv.step hgood hstep) (inv_start n) h

end

/-- A RAM file system at the root. -/
def rootMounted : Mounted where
  table := [⟨none, some ['/'], some ⟨['r', 'a', 'm'], true, true⟩⟩]
  fullpath := fun _ => false
  index := 0
  path := ['/']
  ops := ⟨['r', 'a', 'm'], true, true⟩
  devId := none
  entry := rfl
  flag := rfl
  normal := ⟨[], fun _ hmem => (by cases hmem), rfl⟩

def createA : Event :=
  .open { fd := 0, path := ⟨['/', 'a'], by decide⟩, flags := { creat := true } }

def renameA : Event :=
  .rename { oldpath := ⟨['/', 'a'], by decide⟩, newpath := ⟨['/', 'b'], by decide⟩ }

def appendA : Event :=
  .open { fd := 1, path := ⟨['/', 'a'], by decide⟩, flags := { append := true } }

def renameC : Event :=
  .rename { oldpath := ⟨['/', 'c'], by decide⟩, newpath := ⟨['/', 'a'], by decide⟩ }

/-- A file is written, closed, opened again and appended to. No file is renamed to it while it is
there, and none after it is gone. -/
theorem agrees_throughout_reopened : Throughout (step rootMounted fun _ => [nul])
    (Agrees rootMounted fun _ => [nul]) (start 2)
    [createA, .write { fd := 0, buf := [1, 2] }, .close { fd := 0 }, appendA,
      .write { fd := 1, buf := [3] }, renameC, .close { fd := 1 },
      .unlink { path := ⟨['/', 'a'], by decide⟩ }, renameC, createA] :=
  agrees_throughout _ _ _ _ (by decide +kernel)

/-- The slash goes into the name, so the file is found at neither path. -/
theorem renamed_file_lost : ¬ Throughout (step rootMounted fun _ => [nul])
    (Agrees rootMounted fun _ => [nul]) (start 1) [createA, renameA] := by
  intro h
  have hrun : ∃ st, run (step rootMounted fun _ => [nul]) (start 1) [createA, renameA] = some st ∧
      st.1.find rootMounted (fun _ => [nul]) ['/', 'b'] = none ∧
      st.2.files ['/', 'b'] = some 1 := ⟨_, rfl, by decide +kernel, by decide +kernel⟩
  obtain ⟨st, hst, hnone, hsome⟩ := hrun
  have hkey : rootMounted.key none ⟨['/', 'b'], by decide⟩ = some ['/', 'b'] := by decide +kernel
  have hfind := (h.last hst).find none _ _ hkey
  rw [hnone, hsome] at hfind
  cases hfind

end ControlRTT.Components.RamFilesRuns
