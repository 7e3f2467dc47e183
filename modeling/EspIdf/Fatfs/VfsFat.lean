import EspIdf.Device.Runs
import EspIdf.Vfs.Mounts

/-! The FAT file system behind the VFS callbacks of `vfs_fat.c`.  FatFs is one file tree for each
drive, picked by the text in front of the path (`get_ldnumber` of `ff.c`, with the defaults: numeric
drive ids, no long file names). -/

namespace EspIdf.Fatfs

open EspIdf.Runs EspIdf.Vfs

def volumes : Nat := 2

def colon : UInt8 := 58

/-- `get_ldnumber`: the drive that a path names, and the path behind the drive id.  The scan for a
colon ends at a blank. -/
def getLdnumber (path : Path) : Option (Nat × Path) :=
  let tt := path.takeWhile fun c => 33 ≤ c.toNat ∧ c ≠ colon
  match path.drop tt.length with
  | [] => some (0, path)
  | c :: rest =>
    if c = colon then
      match tt with
      | [d] =>
        if 48 ≤ d.toNat ∧ d.toNat - 48 < volumes then some (d.toNat - 48, rest) else none
      | _ => none
    else some (0, path)

/-! ### The trees -/

inductive FResult where
  | diskErr
  | intErr
  | notReady
  | noFile
  | noPath
  | invalidName
  | denied
  | exist
  | invalidObject
  | writeProtected
  | invalidDrive
  | notEnabled
  | noFilesystem
  | mkfsAborted
  | timeout
  | locked
  | notEnoughCore
  | tooManyOpenFiles
  | invalidParameter
  deriving DecidableEq, Repr

inductive Errno where
  | eio
  | enodev
  | enoent
  | einval
  | eacces
  | eexist
  | ebadf
  | enxio
  | eintr
  | etimedout
  | enomem
  | enfile
  deriving DecidableEq, Repr

def fresultToErrno : FResult → Errno
  | .diskErr | .intErr => .eio
  | .notReady | .notEnabled | .noFilesystem => .enodev
  | .noFile | .noPath => .enoent
  | .invalidName | .invalidParameter => .einval
  | .denied | .writeProtected | .locked => .eacces
  | .exist => .eexist
  | .invalidObject => .ebadf
  | .invalidDrive => .enxio
  | .mkfsAborted => .eintr
  | .timeout => .etimedout
  | .notEnoughCore => .enomem
  | .tooManyOpenFiles => .enfile

inductive Node where
  | file (data : List UInt8)
  | dir
  deriving DecidableEq, Repr

abbrev Names := List (List UInt8)

abbrev Tree := List (Names × Node)

def names (path : Path) : Names :=
  (path.splitOnP fun c => c = slash ∨ c = 92).filter (· ≠ [])

namespace Tree

def followPath (tree : Tree) (p : Names) : Except FResult Node :=
  if p = [] then .ok .dir
  else if p.dropLast = [] ∨ tree.lookup p.dropLast = some .dir then
    match tree.lookup p with
    | none => .error .noFile
    | some node => .ok node
  else .error .noPath

def put (tree : Tree) (p : Names) (node : Node) : Tree :=
  (p, node) :: tree.filter (·.1 ≠ p)

end Tree

inductive Disposition where
  | openExisting
  | createNew
  | createAlways
  | openAlways
  deriving DecidableEq, Repr

structure FatMode where
  read : Bool
  write : Bool
  disposition : Disposition
  deriving DecidableEq, Repr

inductive AccMode where
  | rdonly
  | wronly
  | rdwr
  deriving DecidableEq, Repr

structure OpenFlags where
  acc : AccMode
  creat : Bool
  excl : Bool
  trunc : Bool
  append : Bool
  deriving DecidableEq, Repr

def fatModeConv (m : OpenFlags) : FatMode where
  read := m.acc ≠ .wronly
  write := m.acc ≠ .rdonly
  disposition :=
    if m.creat ∧ m.excl then .createNew
    else if m.creat ∧ m.trunc then .createAlways
    else if m.append then .openAlways
    else .openExisting

structure FilInfo where
  fsize : Nat
  isDir : Bool
  deriving DecidableEq, Repr

namespace Tree

def open_ (mode : FatMode) (tree : Tree) (p : Names) : Except FResult (List UInt8) × Tree :=
  match tree.followPath p with
  | .error .noFile =>
    if mode.disposition = .openExisting then (.error .noFile, tree)
    else (.ok [], tree.put p (.file []))
  | .error e => (.error e, tree)
  | .ok node =>
    if p = [] then (.error .invalidName, tree)
    else match node, mode.disposition with
      | .dir, .openExisting => (.error .noFile, tree)
      | .dir, _ => (.error .denied, tree)
      | .file _, .createNew => (.error .exist, tree)
      | .file _, .createAlways => (.ok [], tree.put p (.file []))
      | .file data, _ => (.ok data, tree)

def stat (tree : Tree) (p : Names) : Except FResult FilInfo × Tree :=
  match tree.followPath p with
  | .error e => (.error e, tree)
  | .ok node =>
    if p = [] then (.error .invalidName, tree)
    else match node with
      | .dir => (.ok ⟨0, true⟩, tree)
      | .file data => (.ok ⟨data.length, false⟩, tree)

def unlink (tree : Tree) (p : Names) : Except FResult Unit × Tree :=
  match tree.followPath p with
  | .error e => (.error e, tree)
  | .ok node =>
    if p = [] then (.error .invalidName, tree)
    else if node = .dir ∧ (tree.any fun entry => entry.1.dropLast = p) then (.error .denied, tree)
    else (.ok (), tree.filter (·.1 ≠ p))

def mkdir (tree : Tree) (p : Names) : Except FResult Unit × Tree :=
  match tree.followPath p with
  | .error .noFile => (.ok (), tree.put p .dir)
  | .error e => (.error e, tree)
  | .ok _ => (.error .exist, tree)

def opendir (tree : Tree) (p : Names) : Except FResult Unit × Tree :=
  match tree.followPath p with
  | .error .noFile => (.error .noPath, tree)
  | .error e => (.error e, tree)
  | .ok .dir => (.ok (), tree)
  | .ok (.file _) => (.error .noPath, tree)

def move (tree : Tree) (old new : Names) : Tree :=
  tree.map fun entry =>
    if entry.1.take old.length = old then (new ++ entry.1.drop old.length, entry.2) else entry

def rename (new : Names) (tree : Tree) (old : Names) : Except FResult Unit × Tree :=
  match tree.followPath old with
  | .error e => (.error e, tree)
  | .ok _ =>
    if old = [] then (.error .invalidName, tree)
    else if new = old then (.ok (), tree)
    else match tree.followPath new with
      | .ok _ => (.error .exist, tree)
      | .error .noFile => (.ok (), tree.move old new)
      | .error e => (.error e, tree)

/-- `f_write` at the end of an open file, and `f_close`. -/
def write (data : List UInt8) (tree : Tree) (p : Names) : Except FResult Unit × Tree :=
  (.ok (), tree.put p (.file data))

end Tree

/-! ### FatFs -/

structure FatFs where
  tree : Nat → Option Tree

/-- What a call of FatFs leaves: its result, the trees, and the objects that it looked up, with
their drives. -/
structure Done (α : Type) where
  res : Except FResult α
  fs : FatFs
  touched : List (Nat × Names)

def FatFs.onVolume {α : Type} (fs : FatFs) (path : Path)
    (op : Tree → Names → Except FResult α × Tree) (others : List Names) : Done α :=
  match getLdnumber path with
  | none => ⟨.error .invalidDrive, fs, []⟩
  | some (vol, rest) =>
    match fs.tree vol with
    | none => ⟨.error .notEnabled, fs, []⟩
    | some tree =>
      ⟨(op tree (names rest)).1,
        ⟨Function.update fs.tree vol (some (op tree (names rest)).2)⟩,
        (names rest :: others).map (vol, ·)⟩

namespace FatFs

def fOpen (fs : FatFs) (path : Path) (mode : FatMode) : Done (List UInt8) :=
  fs.onVolume path (Tree.open_ mode) []

def fStat (fs : FatFs) (path : Path) : Done FilInfo := fs.onVolume path Tree.stat []

def fUnlink (fs : FatFs) (path : Path) : Done Unit := fs.onVolume path Tree.unlink []

def fMkdir (fs : FatFs) (path : Path) : Done Unit := fs.onVolume path Tree.mkdir []

def fOpendir (fs : FatFs) (path : Path) : Done Unit := fs.onVolume path Tree.opendir []

def fRename (fs : FatFs) (pathOld pathNew : Path) : Done Unit :=
  let new := names (((getLdnumber pathNew).map (·.2)).getD pathNew)
  fs.onVolume pathOld (Tree.rename new) [new]

def fWrite (fs : FatFs) (path : Path) (data : List UInt8) : Done Unit :=
  fs.onVolume path (Tree.write data) []

end FatFs

/-! ### The callbacks -/

/-- `vfs_fat_ctx_t`; an open file is known by the path it was opened with. -/
structure VfsFatCtx where
  fatDrive : Path
  basePath : Path
  files : List (Option Path)
  deriving DecidableEq, Repr

def VfsFatCtx.drive (ctx : VfsFatCtx) : Option Nat := (getLdnumber ctx.fatDrive).map (·.1)

structure Buffers where
  buf : Path
  buf2 : Path
  deriving DecidableEq, Repr

/-- `prepend_drive_to_path`.  It fills its buffers and moves its own copies of the two pointers; the
paths of the caller stay what they are. -/
def prependDriveToPath (ctx : VfsFatCtx) (path : Path) (path2 : Option Path) (bufs : Buffers) :
    Buffers where
  buf := ctx.fatDrive ++ path
  buf2 := (path2.map (ctx.fatDrive ++ ·)).getD bufs.buf2

/-- The calls of the VFS layer, with paths relative to the mount point. -/
inductive Call where
  | open (path : Path) (flags : OpenFlags)
  | stat (path : Path)
  | unlink (path : Path)
  | link (n1 n2 : Path)
  | rename (src dst : Path)
  | opendir (name : Path)
  | mkdir (name : Path)
  | rmdir (name : Path)
  deriving DecidableEq, Repr

inductive Reply where
  | err (e : Errno)
  | done
  | fd (n : Nat)
  | info (i : FilInfo)
  deriving DecidableEq, Repr

structure After where
  reply : Reply
  ctx : VfsFatCtx
  fs : FatFs
  touched : List (Nat × Names)

/-- A callback whose context does not change, from the FatFs call that it makes. -/
def Done.after {α : Type} (d : Done α) (ctx : VfsFatCtx) (ret : α → Reply) : After where
  reply := match d.res with
    | .error e => .err (fresultToErrno e)
    | .ok a => ret a
  ctx := ctx
  fs := d.fs
  touched := d.touched

def getNextFd (ctx : VfsFatCtx) : Option Nat := ctx.files.findIdx? (· = none)

def vfsFatOpen (ctx : VfsFatCtx) (fs : FatFs) (path : Path) (flags : OpenFlags) : After :=
  match getNextFd ctx with
  | none => ⟨.err .enfile, ctx, fs, []⟩
  | some fd =>
    let d := fs.fOpen path (fatModeConv flags)
    match d.res with
    | .error e => ⟨.err (fresultToErrno e), { ctx with files := ctx.files.set fd none }, d.fs,
        d.touched⟩
    | .ok _ => ⟨.fd fd, { ctx with files := ctx.files.set fd (some path) }, d.fs, d.touched⟩

def vfsFatStat (ctx : VfsFatCtx) (fs : FatFs) (path : Path) : After :=
  (fs.fStat path).after ctx .info

def vfsFatUnlink (ctx : VfsFatCtx) (fs : FatFs) (path : Path) : After :=
  (fs.fUnlink path).after ctx fun _ => .done

def copyLoop (left copied : List UInt8) : List UInt8 :=
  if left = [] then copied
  else copyLoop (left.drop 4096) (copied ++ left.take 4096)
termination_by left.length
decreasing_by
  have := List.length_pos_iff.2 ‹left ≠ []›
  simp only [List.length_drop]
  omega

def vfsFatLink (ctx : VfsFatCtx) (fs : FatFs) (n1 n2 : Path) (memory : Bool) : After :=
  if !memory then ⟨.err .enomem, ctx, fs, []⟩
  else
    let d1 := fs.fOpen n1 ⟨true, false, .openExisting⟩
    match d1.res with
    | .error e => ⟨.err (fresultToErrno e), ctx, d1.fs, d1.touched⟩
    | .ok data =>
      let d2 := d1.fs.fOpen n2 ⟨false, true, .createNew⟩
      match d2.res with
      | .error e => ⟨.err (fresultToErrno e), ctx, d2.fs, d1.touched ++ d2.touched⟩
      | .ok _ =>
        let d3 := d2.fs.fWrite n2 (copyLoop data [])
        ⟨.done, ctx, d3.fs, d1.touched ++ d2.touched ++ d3.touched⟩

def vfsFatRename (ctx : VfsFatCtx) (fs : FatFs) (src dst : Path) : After :=
  (fs.fRename src dst).after ctx fun _ => .done

def vfsFatOpendir (ctx : VfsFatCtx) (fs : FatFs) (name : Path) (memory : Bool) : After :=
  if !memory then ⟨.err .enomem, ctx, fs, []⟩
  else (fs.fOpendir name).after ctx fun _ => .done

def vfsFatMkdir (ctx : VfsFatCtx) (fs : FatFs) (name : Path) : After :=
  (fs.fMkdir name).after ctx fun _ => .done

def vfsFatRmdir (ctx : VfsFatCtx) (fs : FatFs) (name : Path) : After :=
  (fs.fUnlink name).after ctx fun _ => .done

def callback (ctx : VfsFatCtx) (fs : FatFs) (memory : Bool) : Call → After
  | .open path flags => vfsFatOpen ctx fs path flags
  | .stat path => vfsFatStat ctx fs path
  | .unlink path => vfsFatUnlink ctx fs path
  | .link n1 n2 => vfsFatLink ctx fs n1 n2 memory
  | .rename src dst => vfsFatRename ctx fs src dst
  | .opendir name => vfsFatOpendir ctx fs name memory
  | .mkdir name => vfsFatMkdir ctx fs name
  | .rmdir name => vfsFatRmdir ctx fs name

def Call.prepended : Call → Path × Option Path
  | .open path _ | .stat path | .unlink path => (path, none)
  | .link n1 n2 => (n1, some n2)
  | .rename src dst => (src, some dst)
  | .opendir name | .mkdir name | .rmdir name => (name, none)

/-! ### Mounts -/

abbrev Ctxs := List (Option VfsFatCtx)

/-- The arguments of `esp_vfs_fat_register`, and whether its `calloc` and the `malloc` of
`esp_vfs_register` succeed. -/
structure Registration where
  basePath : Path
  fatDrive : Path
  maxFiles : Nat
  memory : Bool
  vfsMemory : Bool
  deriving DecidableEq, Repr

def findContextIndexByPath (ctxs : Ctxs) (basePath : Path) : Option Nat :=
  ctxs.findIdx? fun c => c.any (·.basePath = basePath)

def findUnusedContextIndex (ctxs : Ctxs) : Option Nat := ctxs.findIdx? (· = none)

/-- The context of a mount; `strlcpy` is given one byte less than the buffers have. -/
def Registration.ctx (r : Registration) : VfsFatCtx where
  fatDrive := r.fatDrive.take 6
  basePath := r.basePath.take (pathMax - 2)
  files := List.replicate r.maxFiles none

def espVfsFatRegister (ctxs : Ctxs) (slots : Slots) (r : Registration) : EspErr × Ctxs × Slots :=
  if (findContextIndexByPath ctxs r.basePath).isSome then (.invalidState, ctxs, slots)
  else match findUnusedContextIndex ctxs with
    | none => (.noMem, ctxs, slots)
    | some i =>
      if !r.memory then (.noMem, ctxs, slots)
      else
        let vfs := espVfsRegister slots r.basePath i r.vfsMemory
        if vfs.1 ≠ .ok then (vfs.1, ctxs, vfs.2)
        else (.ok, ctxs.set i (some r.ctx), vfs.2)

def mountBoth (a b : Registration) : Option Ctxs :=
  let ra := espVfsFatRegister (List.replicate volumes none) [] a
  let rb := espVfsFatRegister ra.2.1 ra.2.2 b
  if ra.1 = .ok ∧ rb.1 = .ok then some rb.2.1 else none

structure State where
  ctxs : Ctxs
  fs : FatFs
  bufs : Buffers
  /-- the objects touched so far, with the mount whose callback touched them -/
  touched : List (Nat × Nat × Names)
  /-- the replies so far, with the mount that gave them -/
  replies : List (Nat × Reply)

def start (ctxs : Ctxs) (fs : FatFs) : State := ⟨ctxs, fs, ⟨[], []⟩, [], []⟩

structure Event where
  mount : Nat
  call : Call
  memory : Bool
  deriving DecidableEq, Repr

def step (s : State) (ev : Event) : Option State :=
  (s.ctxs[ev.mount]?.join).map fun ctx =>
    let after := callback ctx s.fs ev.memory ev.call
    { ctxs := s.ctxs.set ev.mount (some after.ctx)
      fs := after.fs
      bufs := prependDriveToPath ctx ev.call.prepended.1 ev.call.prepended.2 s.bufs
      touched := s.touched ++ after.touched.map (ev.mount, ·)
      replies := s.replies ++ [(ev.mount, after.reply)] }

/-- Every object touched by a call on a mount belongs to the drive of the mount. -/
def Isolated (s : State) : Prop :=
  ∀ t ∈ s.touched, ∃ ctx, s.ctxs[t.1]?.join = some ctx ∧ ctx.drive = some t.2.1

def VfsFatCtx.Own (ctx : VfsFatCtx) (path : Path) : Prop :=
  ∀ (vol : Nat) (rest : Path), getLdnumber path = some (vol, rest) → ctx.drive = some vol

def NamesFile (path : Path) : Prop :=
  ∃ vol rest, getLdnumber path = some (vol, rest) ∧ names rest ≠ []

/-- The condition on a call: every path that reaches FatFs names the mount's own drive.  Without a
place for a file nothing is opened; the new name of a rename stays on the drive of the old one; and
the second name of a link is used if the first can be opened. -/
def VfsFatCtx.OwnCall (ctx : VfsFatCtx) : Call → Prop
  | .open path _ => ctx.files ≠ [] → ctx.Own path
  | .stat path | .unlink path | .opendir path | .mkdir path | .rmdir path => ctx.Own path
  | .rename src _ => ctx.Own src
  | .link n1 n2 => ctx.Own n1 ∧ (NamesFile n1 → ctx.Own n2)

/-! ### What a call of FatFs touches -/

section OnVolume

variable {α : Type} {fs fs' : FatFs} {path : Path} {op : Tree → Names → Except FResult α × Tree}
  {others : List Names} {ctx : VfsFatCtx}

theorem touched_onVolume (ht : t ∈ (fs.onVolume path op others).touched) :
    ∃ rest, getLdnumber path = some (t.1, rest) := by
  unfold FatFs.onVolume at ht
  split at ht
  case h_1 => simp at ht
  case h_2 vol rest hpath =>
    split at ht
    · simp at ht
    · obtain ⟨p, -, rfl⟩ := List.mem_map.1 ht
      exact ⟨rest, hpath⟩

theorem VfsFatCtx.Own.touched (h : ctx.Own path) :
    ∀ t ∈ (fs.onVolume path op others).touched, ctx.drive = some t.1 := by
  intro t ht
  obtain ⟨rest, hpath⟩ := touched_onVolume ht
  exact h t.1 rest hpath

end OnVolume

theorem namesFile_of_fOpen {fs : FatFs} {path : Path} {mode : FatMode} {data : List UInt8}
    (h : (fs.fOpen path mode).res = .ok data) : NamesFile path := by
  unfold FatFs.fOpen FatFs.onVolume at h
  cases hpath : getLdnumber path with
  | none => simp [hpath] at h
  | some q =>
    refine ⟨q.1, q.2, hpath, fun hroot => ?_⟩
    cases htree : fs.tree q.1 with
    | none => simp [hpath, htree] at h
    | some tree => simp [hpath, htree, hroot, Tree.open_, Tree.followPath] at h

/-! ### Calls within the own drive -/

section OwnCalls

variable {ctx : VfsFatCtx} {fs fs' : FatFs} {memory : Bool} {c : Call}

theorem own_of_getNextFd (h : ctx.OwnCall (.open path flags)) (hfd : getNextFd ctx = some fd) :
    ctx.Own path := by
  refine h fun hnil => ?_
  simp [getNextFd, hnil] at hfd

theorem VfsFatCtx.OwnCall.touched (h : ctx.OwnCall c) :
    ∀ t ∈ (callback ctx fs memory c).touched, ctx.drive = some t.1 := by
  cases c with
  | «open» path flags =>
    simp only [callback, vfsFatOpen]
    cases hfd : getNextFd ctx with
    | none => simp
    | some fd =>
      have hown := own_of_getNextFd h hfd
      intro t ht
      simp only at ht
      split at ht <;> exact hown.touched t ht
  | link n1 n2 =>
    simp only [callback, vfsFatLink]
    cases memory with
    | false => simp
    | true =>
      simp only [Bool.not_true, Bool.false_eq_true, if_false]
      cases hres : (fs.fOpen n1 ⟨true, false, .openExisting⟩).res with
      | error e => exact h.1.touched
      | ok data =>
        have hown2 := h.2 (namesFile_of_fOpen hres)
        intro t ht
        simp only at ht
        split at ht
        · rcases List.mem_append.1 ht with ht | ht
          · exact h.1.touched t ht
          · exact hown2.touched t ht
        · rcases List.mem_append.1 ht with ht | ht
          · rcases List.mem_append.1 ht with ht | ht
            · exact h.1.touched t ht
            · exact hown2.touched t ht
          · exact hown2.touched t ht
  | opendir name =>
    simp only [callback, vfsFatOpendir]
    cases memory with
    | false => simp
    | true => exact VfsFatCtx.Own.touched h
  | _ => exact VfsFatCtx.Own.touched h

end OwnCalls

/-! ### Calls that leave the own drive -/

theorem touches_onVolume {α : Type} {fs : FatFs} {path rest : Path} {vol : Nat} {tree : Tree}
    {op : Tree → Names → Except FResult α × Tree} {others : List Names}
    (hpath : getLdnumber path = some (vol, rest)) (htree : fs.tree vol = some tree) :
    (vol, names rest) ∈ (fs.onVolume path op others).touched := by
  simp [FatFs.onVolume, hpath, htree]

def oneFile (p : Names) : FatFs := ⟨fun _ => some [(p, .file []), (p.dropLast, .dir)]⟩

theorem followPath_oneFile (hp : p ≠ []) :
    Tree.followPath [(p, .file []), (p.dropLast, .dir)] p = .ok (.file []) := by
  have hne : p.dropLast ≠ p := fun heq => by
    have := congrArg List.length heq
    have := List.length_pos_iff.2 hp
    rw [List.length_dropLast] at *
    omega
  have hbeq : (p.dropLast == p) = false := by simpa using hne
  simp [Tree.followPath, hp, List.lookup_cons, hbeq]

theorem fOpen_oneFile (hpath : getLdnumber path = some (vol, rest)) (hnames : names rest ≠ []) :
    ((oneFile (names rest)).fOpen path ⟨true, false, .openExisting⟩).res = .ok [] := by
  simp [FatFs.fOpen, FatFs.onVolume, hpath, oneFile, Tree.open_, followPath_oneFile hnames, hnames]

theorem isSome_fOpen {fs : FatFs} {vol : Nat} (h : (fs.tree vol).isSome) (path : Path)
    (mode : FatMode) : ((fs.fOpen path mode).fs.tree vol).isSome := by
  unfold FatFs.fOpen FatFs.onVolume
  split
  · exact h
  case h_2 v rest hpath =>
    split
    · exact h
    · by_cases hv : vol = v
      · simp [hv]
      · simpa [hv] using h

variable {ctx : VfsFatCtx}

theorem link_touches_first (ht : t ∈ (fs.fOpen n1 ⟨true, false, .openExisting⟩).touched) :
    t ∈ (vfsFatLink ctx fs n1 n2 true).touched := by
  simp only [vfsFatLink, Bool.not_true, Bool.false_eq_true, if_false]
  split
  · exact ht
  · split
    · exact List.mem_append_left _ ht
    · exact List.mem_append_left _ (List.mem_append_left _ ht)

theorem link_touches_second {data : List UInt8}
    (hres : (fs.fOpen n1 ⟨true, false, .openExisting⟩).res = .ok data)
    (ht : t ∈ ((fs.fOpen n1 ⟨true, false, .openExisting⟩).fs.fOpen n2
    ⟨false, true, .createNew⟩).touched) :
    t ∈ (vfsFatLink ctx fs n1 n2 true).touched := by
  simp only [vfsFatLink, Bool.not_true, Bool.false_eq_true, if_false, hres]
  split
  · exact List.mem_append_right _ ht
  · exact List.mem_append_left _ (List.mem_append_right _ ht)

section Leaves

variable {ctx : VfsFatCtx} {c : Call}

theorem not_own (h : ¬ ctx.Own path) :
    ∃ vol rest, getLdnumber path = some (vol, rest) ∧ ctx.drive ≠ some vol := by
  simp only [VfsFatCtx.Own, not_forall] at h
  obtain ⟨vol, rest, hpath, hdrive⟩ := h
  exact ⟨vol, rest, hpath, hdrive⟩

theorem touches_other (hfree : ∀ f ∈ ctx.files, f = none) (h : ¬ ctx.OwnCall c) :
    ∃ fs, ∃ t ∈ (callback ctx fs true c).touched, ctx.drive ≠ some t.1 := by
  cases c with
  | «open» path flags =>
    simp only [VfsFatCtx.OwnCall, Classical.not_imp] at h
    obtain ⟨vol, rest, hpath, hdrive⟩ := not_own h.2
    refine ⟨oneFile [], (vol, names rest), ?_, hdrive⟩
    obtain ⟨f, files, hfiles⟩ := List.exists_cons_of_ne_nil h.1
    have hfd : getNextFd ctx = some 0 := by
      have hf : f = none := hfree f (hfiles ▸ List.mem_cons_self)
      simp [getNextFd, hfiles, hf, List.findIdx?_cons]
    simp only [callback, vfsFatOpen, hfd]
    split <;> exact touches_onVolume hpath rfl
  | link n1 n2 =>
    by_cases h1 : ctx.Own n1
    · simp only [VfsFatCtx.OwnCall, h1, true_and, Classical.not_imp] at h
      obtain ⟨⟨vol1, rest1, hpath1, hnames⟩, hown2⟩ := h
      obtain ⟨vol, rest, hpath, hdrive⟩ := not_own hown2
      have hsome : ((oneFile (names rest1)).tree vol).isSome := rfl
      obtain ⟨tree, htree⟩ := Option.isSome_iff_exists.1
        (isSome_fOpen hsome n1 ⟨true, false, .openExisting⟩)
      exact ⟨oneFile (names rest1), (vol, names rest),
        link_touches_second (fOpen_oneFile hpath1 hnames) (touches_onVolume hpath htree), hdrive⟩
    · obtain ⟨vol, rest, hpath, hdrive⟩ := not_own h1
      exact ⟨oneFile [], (vol, names rest), link_touches_first (touches_onVolume hpath rfl), hdrive⟩
  | opendir name =>
    obtain ⟨vol, rest, hpath, hdrive⟩ := not_own h
    refine ⟨oneFile [], (vol, names rest), ?_, hdrive⟩
    exact touches_onVolume hpath rfl
  | _ =>
    obtain ⟨vol, rest, hpath, hdrive⟩ := not_own h
    exact ⟨oneFile [], (vol, names rest), touches_onVolume hpath rfl, hdrive⟩

end Leaves

/-! ### Runs -/

structure SameMount (ctx ctx' : VfsFatCtx) : Prop where
  fatDrive : ctx'.fatDrive = ctx.fatDrive
  slots : ctx'.files.length = ctx.files.length

theorem SameMount.refl (ctx : VfsFatCtx) : SameMount ctx ctx := ⟨rfl, rfl⟩

theorem SameMount.trans (h : SameMount a b) (h' : SameMount b c) : SameMount a c :=
  ⟨h'.fatDrive.trans h.fatDrive, h'.slots.trans h.slots⟩

theorem SameMount.drive (h : SameMount ctx ctx') : ctx'.drive = ctx.drive := by
  rw [VfsFatCtx.drive, VfsFatCtx.drive, h.fatDrive]

theorem SameMount.ownCall (h : SameMount ctx ctx') (hc : ctx.OwnCall c) : ctx'.OwnCall c := by
  have hown : ∀ path, ctx.Own path → ctx'.Own path := fun path hp vol rest hpath =>
    h.drive.trans (hp vol rest hpath)
  cases c with
  | «open» path flags =>
    refine fun hne => hown path (hc fun hnil => hne ?_)
    rw [← List.length_eq_zero_iff, h.slots, hnil, List.length_nil]
  | link n1 n2 => exact ⟨hown n1 hc.1, fun hn => hown n2 (hc.2 hn)⟩
  | _ => exact hown _ hc

theorem sameMount_callback : SameMount ctx (callback ctx fs memory c).ctx := by
  cases c with
  | «open» path flags =>
    simp only [callback, vfsFatOpen]
    split
    · exact .refl ctx
    · split
      · exact ⟨rfl, List.length_set⟩
      · exact ⟨rfl, List.length_set⟩
  | link n1 n2 =>
    simp only [callback, vfsFatLink]
    split_ifs
    · exact .refl ctx
    · split
      · exact .refl ctx
      · split <;> exact .refl ctx
  | opendir name =>
    simp only [callback, vfsFatOpendir]
    split_ifs <;> exact .refl ctx
  | _ => exact .refl ctx

theorem step_some (hs' : step s ev = some s') : ∃ ctx, s.ctxs[ev.mount]?.join = some ctx ∧
      s'.ctxs = s.ctxs.set ev.mount (some (callback ctx s.fs ev.memory ev.call).ctx) ∧
      s'.fs = (callback ctx s.fs ev.memory ev.call).fs ∧
      s'.touched = s.touched ++ (callback ctx s.fs ev.memory ev.call).touched.map (ev.mount, ·) ∧
      s'.replies = s.replies ++ [(ev.mount, (callback ctx s.fs ev.memory ev.call).reply)] := by
  obtain ⟨ctx, hctx, rfl⟩ := Option.map_eq_some_iff.1 hs'
  exact ⟨ctx, hctx, rfl, rfl, rfl, rfl⟩

theorem join_set {ctxs : Ctxs} {i j : Nat} {ctx ctx' : VfsFatCtx} (h : ctxs[i]?.join = some ctx) :
    (ctxs.set i (some ctx'))[j]?.join = if i = j then some ctx' else ctxs[j]?.join := by
  have hi : i < ctxs.length := by
    by_contra hlt
    simp [List.getElem?_eq_none (Nat.not_lt.1 hlt)] at h
  by_cases hij : i = j
  · subst hij
    simp [hi]
  · simp [hij]

def Mounted (ctxs : Ctxs) (s : State) : Prop :=
  ∀ (i : Nat) (ctx : VfsFatCtx), s.ctxs[i]?.join = some ctx →
    ∃ ctx₀, ctxs[i]?.join = some ctx₀ ∧ SameMount ctx₀ ctx

theorem Mounted.step {ctxs : Ctxs} {s s' : State} {ev : Event} (h : Mounted ctxs s)
    (hs' : step s ev = some s') : Mounted ctxs s' := by
  obtain ⟨ctx, hctx, hctxs, -⟩ := step_some hs'
  intro i ctx' hctx'
  rw [hctxs, join_set hctx] at hctx'
  split_ifs at hctx' with hi
  · cases hctx'
    subst hi
    obtain ⟨ctx₀, hctx₀, hsame⟩ := h _ ctx hctx
    exact ⟨ctx₀, hctx₀, hsame.trans sameMount_callback⟩
  · exact h i ctx' hctx'

theorem Isolated.step {s s' : State} {ev : Event} (h : Isolated s)
    (hown : ∀ ctx, s.ctxs[ev.mount]?.join = some ctx → ctx.OwnCall ev.call)
    (hs' : step s ev = some s') : Isolated s' := by
  obtain ⟨ctx, hctx, hctxs, -, htouched, -⟩ := step_some hs'
  intro t ht
  rw [htouched] at ht
  rw [hctxs, join_set hctx]
  rcases List.mem_append.1 ht with ht | ht
  · obtain ⟨ctx', hctx', hdrive⟩ := h t ht
    split_ifs with hi
    · rw [← hi, hctx] at hctx'
      cases hctx'
      exact ⟨_, rfl, sameMount_callback.drive.trans hdrive⟩
    · exact ⟨ctx', hctx', hdrive⟩
  · obtain ⟨t', ht', rfl⟩ := List.mem_map.1 ht
    rw [if_pos rfl]
    exact ⟨_, rfl, sameMount_callback.drive.trans ((hown ctx hctx).touched t' ht')⟩

theorem register_ok (h : (espVfsFatRegister ctxs slots r).1 = .ok) :
    ∃ i, findUnusedContextIndex ctxs = some i ∧
      (espVfsFatRegister ctxs slots r).2.1 = ctxs.set i (some r.ctx) := by
  unfold espVfsFatRegister at h ⊢
  by_cases hpath : (findContextIndexByPath ctxs r.basePath).isSome
  · simp [hpath] at h
  · simp only [hpath, Bool.false_eq_true, if_false] at h ⊢
    cases hi : findUnusedContextIndex ctxs with
    | none => simp [hi] at h
    | some i =>
      simp only [hi] at h
      by_cases hmem : r.memory
      · by_cases hvfs : (espVfsRegister slots r.basePath i r.vfsMemory).1 = .ok
        · exact ⟨i, rfl, by simp [hmem, hvfs]⟩
        · simp [hmem, hvfs] at h
      · simp [hmem] at h

theorem mountBoth_ctxs (h : mountBoth a b = some ctxs) : ctxs = [some a.ctx, some b.ctx] := by
  simp only [mountBoth, Option.ite_none_right_eq_some] at h
  obtain ⟨⟨ha, hb⟩, h⟩ := h
  obtain ⟨i, hi, hactx⟩ := register_ok ha
  obtain ⟨j, hj, hbctx⟩ := register_ok hb
  obtain rfl : 0 = i := by simpa [findUnusedContextIndex, volumes, List.findIdx?_cons] using hi
  rw [hactx] at hj hbctx
  obtain rfl : 1 = j := by
    simpa [findUnusedContextIndex, volumes, List.findIdx?_cons] using hj
  rw [← Option.some.inj h, hactx, hbctx]
  rfl

/-- The mounts are isolated in every sequence of the allowed calls, from every contents of the
drives, exactly if no allowed call has a path that names a drive other than that of its mount. -/
theorem mounts_isolated_iff {a b : Registration} {ctxs : Ctxs} (h : mountBoth a b = some ctxs)
    (allowed : Nat → Call → Prop) :
    (∀ (fs : FatFs) (es : List Event), (∀ ev ∈ es, allowed ev.mount ev.call) →
      Always step Isolated (start ctxs fs) es) ↔
    ∀ (i : Nat) (ctx : VfsFatCtx) (c : Call), ctxs[i]?.join = some ctx → allowed i c →
      ctx.OwnCall c := by
  constructor
  · intro hall i ctx c hctx hc
    by_contra hown
    have hfree : ∀ f ∈ ctx.files, f = none := by
      rw [mountBoth_ctxs h] at hctx
      have hmem : some ctx ∈ [some a.ctx, some b.ctx] := by
        rw [Option.join_eq_some_iff] at hctx
        exact List.mem_of_getElem? hctx
      have hctx' : ctx = a.ctx ∨ ctx = b.ctx := by simpa using hmem
      rcases hctx' with rfl | rfl <;> exact fun f hf => List.eq_of_mem_replicate hf
    obtain ⟨fs, t, ht, hdrive⟩ := touches_other hfree hown
    have hrun := hall fs [⟨i, c, true⟩] (by simpa using hc)
    obtain ⟨s', hs'⟩ : ∃ s', step (start ctxs fs) ⟨i, c, true⟩ = some s' := by
      simp [step, start, hctx]
    have hiso : Isolated s' := (hrun.2 s' hs').start
    obtain ⟨ctx', hctx', hctxs, -, htouched, -⟩ := step_some hs'
    obtain rfl : ctx = ctx' := Option.some.inj (hctx.symm.trans hctx')
    obtain ⟨ctx'', hctx'', hdrive''⟩ := hiso (i, t) (by
      rw [htouched]
      exact List.mem_append_right _ (List.mem_map.2 ⟨t, ht, rfl⟩))
    rw [hctxs, join_set hctx', if_pos rfl] at hctx''
    cases hctx''
    exact hdrive (sameMount_callback.drive.symm.trans hdrive'')
  · intro hown fs es hes
    refine (always_of_step (I := fun s => Isolated s ∧ Mounted ctxs s)
      (C := fun _ ev => allowed ev.mount ev.call) (fun s ev s' hI hC hs' => ?_) ?_
      (along_of_forall hes)).imp fun _ hI => hI.1
    · refine ⟨hI.1.step (fun ctx hctx => ?_) hs', hI.2.step hs'⟩
      obtain ⟨ctx₀, hctx₀, hsame⟩ := hI.2 ev.mount ctx hctx
      exact hsame.ownCall (hown ev.mount ctx₀ ev.call hctx₀ hC)
    · exact ⟨fun t ht => absurd ht List.not_mem_nil, fun i ctx hctx => ⟨ctx, hctx, .refl ctx⟩⟩

/-- `"0:"` under `/a`. -/
def mountA : Registration := ⟨[47, 97], [48, 58], 4, true, true⟩

/-- `"1:"` under `/b`. -/
def mountB : Registration := ⟨[47, 98], [49, 58], 4, true, true⟩

theorem mounts_isolated_explicit_drive : ∃ ctxs, mountBoth mountA mountB = some ctxs ∧
    ∀ (fs : FatFs) (es : List Event),
      (∀ ev ∈ es, ev.call = .mkdir (if ev.mount =
        0 then [48, 58, 47, 120] else [49, 58, 47, 120])) →
      Always step Isolated (start ctxs fs) es := by
  have hmount : mountBoth mountA mountB = some [some mountA.ctx, some mountB.ctx] := by
    decide +kernel
  refine ⟨_, hmount, (mounts_isolated_iff hmount fun i c =>
    c = .mkdir (if i = 0 then [48, 58, 47, 120] else [49, 58, 47, 120])).2 ?_⟩
  rintro i ctx c hctx rfl vol rest hpath
  rw [Option.join_eq_some_iff] at hctx
  obtain ⟨hi, -⟩ := List.getElem?_eq_some_iff.1 hctx
  obtain rfl | rfl : i = 0 ∨ i = 1 := by
    simp only [List.length_cons, List.length_nil] at hi
    omega
  · obtain rfl : mountA.ctx = ctx := by simpa using hctx
    have h0 : getLdnumber [48, 58, 47, 120] = some (0, [47, 120]) := by decide +kernel
    obtain ⟨rfl, rfl⟩ := Prod.mk.inj (Option.some.inj (h0.symm.trans hpath))
    decide +kernel
  · obtain rfl : mountB.ctx = ctx := by simpa using hctx
    have h1 : getLdnumber [49, 58, 47, 120] = some (1, [47, 120]) := by decide +kernel
    obtain ⟨rfl, rfl⟩ := Prod.mk.inj (Option.some.inj (h1.symm.trans hpath))
    decide +kernel

theorem mkdir_on_other_mount : ∃ ctxs, mountBoth mountA mountB = some ctxs ∧
    ¬ Always step Isolated (start ctxs ⟨fun _ => some []⟩) [⟨1, .mkdir [47, 120], true⟩] ∧
    (run step (start ctxs ⟨fun _ => some []⟩)
      [⟨0, .stat [47, 120], true⟩, ⟨1, .mkdir [47, 120], true⟩, ⟨0, .stat [47, 120], true⟩]).any
      (fun s => s.replies = [(0, .err .enoent), (1, .done), (0, .info ⟨0, true⟩)]) = true := by
  have hmount : mountBoth mountA mountB = some [some mountA.ctx, some mountB.ctx] := by
    decide +kernel
  refine ⟨_, hmount, fun h => ?_, by decide +kernel⟩
  have hrun : (run step (start [some mountA.ctx, some mountB.ctx] ⟨fun _ => some []⟩)
      [⟨1, .mkdir [47, 120], true⟩]).any
      (fun s => s.touched = [(1, 0, [[120]])] ∧ (s.ctxs[1]?.join.bind (·.drive)) = some 1) =
        true := by
    decide +kernel
  obtain ⟨s, hs, hbad⟩ := (Option.any_eq_true _ _).1 hrun
  simp only [decide_eq_true_eq] at hbad
  obtain ⟨ctx, hctx, hdrive⟩ := h.final hs (1, 0, [[120]]) (by simp [hbad.1])
  rw [hctx] at hbad
  simp [hdrive] at hbad

end EspIdf.Fatfs
