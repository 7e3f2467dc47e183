import Mathlib.Data.List.TakeWhile
import EspIdf.Device.Runs
import EspIdf.EspErr

/-! The interrupt allocator of `intr_alloc.c` on one processor, for sources of the interrupt matrix:
which line a handler gets, and whether the handlers that are enabled are called. -/

namespace EspIdf.IntrAlloc

open EspIdf.Runs

/-! ### The lines of the processor -/

inductive IntDescFlag where
  | normal
  | resvd
  | special
  deriving DecidableEq, Repr

inductive IntType where
  | level
  | edge
  | na
  deriving DecidableEq, Repr

structure IntDesc where
  level : Nat
  type : IntType
  cpu0 : IntDescFlag
  cpu1 : IntDescFlag
  deriving DecidableEq, Repr

def intDescs : List IntDesc :=
  [⟨1, .level, .resvd, .resvd⟩, ⟨1, .level, .resvd, .resvd⟩, ⟨1, .level, .normal, .normal⟩,
   ⟨1, .level, .normal, .normal⟩, ⟨1, .level, .resvd, .normal⟩, ⟨1, .level, .resvd, .normal⟩,
   ⟨1, .na, .resvd, .resvd⟩, ⟨1, .na, .special, .special⟩, ⟨1, .level, .resvd, .resvd⟩,
   ⟨1, .level, .resvd, .resvd⟩, ⟨1, .edge, .resvd, .resvd⟩, ⟨3, .na, .special, .special⟩,
   ⟨1, .level, .normal, .normal⟩, ⟨1, .level, .normal, .normal⟩, ⟨7, .level, .resvd, .resvd⟩,
   ⟨3, .na, .special, .special⟩, ⟨5, .na, .special, .special⟩, ⟨1, .level, .normal, .normal⟩,
   ⟨1, .level, .normal, .normal⟩, ⟨2, .level, .normal, .normal⟩, ⟨2, .level, .normal, .normal⟩,
   ⟨2, .level, .normal, .normal⟩, ⟨3, .edge, .resvd, .normal⟩, ⟨3, .level, .normal, .normal⟩,
   ⟨4, .level, .resvd, .normal⟩, ⟨4, .level, .resvd, .resvd⟩, ⟨5, .level, .resvd, .resvd⟩,
   ⟨3, .level, .resvd, .resvd⟩, ⟨4, .edge, .normal, .normal⟩, ⟨3, .na, .special, .special⟩,
   ⟨4, .edge, .resvd, .resvd⟩, ⟨5, .level, .resvd, .resvd⟩]

def intDesc (x : Nat) : IntDesc := intDescs.getD x ⟨0, .na, .resvd, .resvd⟩

def IntDesc.cpuflags (d : IntDesc) (cpu : Fin 2) : IntDescFlag := if cpu = 0 then d.cpu0 else d.cpu1

def intMuxDisabledIntno : Nat := 6

/-! ### The state -/

/-- `shared_vector_desc_t`, without a status register, as `esp_intr_alloc` makes it.  `id` stands
for its address: the number of the allocation that made it. -/
structure SharedVectorDesc where
  id : Nat
  disabled : Bool
  source : Nat
  isr : Nat
  arg : Nat
  deriving DecidableEq, Repr

structure VectorDesc where
  intno : Nat
  reserved : Bool
  inIram : Bool
  shared : Bool
  nonshared : Bool
  source : Nat
  sharedVecInfo : List SharedVectorDesc
  deriving DecidableEq, Repr

def VectorDesc.empty (intno : Nat) : VectorDesc := ⟨intno, false, false, false, false, 0, []⟩

inductive Vector where
  | unhandled
  | handler (isr arg : Nat)
  | sharedIntrIsr (intno : Nat)
  deriving DecidableEq, Repr

/-- `intr_handle_data_t`, and what the handle was allocated for: source, handler, argument, whether
it is disabled and whether the caller has it. -/
structure Handle where
  intno : Nat
  sharedVectorDesc : Option Nat
  source : Nat
  isr : Nat
  arg : Nat
  disabled : Bool
  kept : Bool
  deriving DecidableEq, Repr

/-- The descriptors, the vectors, the interrupt matrix, `INTENABLE`, and the handles that are not
freed, by the number of their allocation. -/
structure IntrState where
  vectors : List VectorDesc
  table : Nat → Vector
  matrix : Nat → Nat
  intenable : Nat → Bool
  handles : Nat → Option Handle
  next : Nat

namespace IntrState

def findDescForInt (s : IntrState) (intno : Nat) : Option VectorDesc :=
  s.vectors.find? (·.intno = intno)

def insertVectorDesc (vectors : List VectorDesc) (d : VectorDesc) : Option (List VectorDesc) :=
  match vectors with
  | [] => some [d]
  | first :: _ =>
    if d.intno ≤ first.intno then none
    else some (vectors.takeWhile (·.intno < d.intno) ++ d :: vectors.dropWhile (·.intno < d.intno))

def modifyDesc (s : IntrState) (intno : Nat) (f : VectorDesc → VectorDesc) : IntrState :=
  { s with vectors := s.vectors.map fun d => if d.intno = intno then f d else d }

def intHasHandler (s : IntrState) (intr : Nat) : Bool := s.table intr ≠ .unhandled

structure Search where
  best : Option Nat
  bestLevel : Nat
  bestSharedCt : Option Nat
  deriving DecidableEq, Repr

def descOrEmpty (s : IntrState) (x : Nat) : VectorDesc := (s.findDescForInt x).getD (.empty x)

def unusable (cpu : Fin 2) (s : IntrState) (flags x : Nat) : Bool :=
  (intDesc x).cpuflags cpu = .resvd || (intDesc x).cpuflags cpu = .special ||
  !flags.testBit (intDesc x).level ||
  ((flags.testBit 9 && (intDesc x).type = .level) ||
    (!flags.testBit 9 && (intDesc x).type = .edge)) ||
  (s.intHasHandler x && !(s.descOrEmpty x).shared) ||
  (s.descOrEmpty x).reserved || (s.descOrEmpty x).nonshared

def choose (s : IntrState) (flags : Nat) (b : Search) (x : Nat) : Search :=
  let vd := s.descOrEmpty x
  let level := (intDesc x).level
  if flags.testBit 8 then
    if vd.shared && vd.inIram != flags.testBit 10 then b
    else if vd.shared then
      let no := vd.sharedVecInfo.length
      if b.bestSharedCt.all (no < ·) || level < b.bestLevel then ⟨some x, level, some no⟩ else b
    else if b.best = none then
      if level < b.bestLevel then { b with best := some x, bestLevel := level } else b
    else b
  else if vd.shared then b
  else if level < b.bestLevel then { b with best := some x, bestLevel := level }
  else b

def consider (cpu : Fin 2) (s : IntrState) (flags : Nat) (b : Search) (x : Nat) : Search :=
  if s.unusable cpu flags x then b else s.choose flags b x

def getFreeInt (cpu : Fin 2) (s : IntrState) (flags : Nat) : Option Nat :=
  ((List.range 32).foldl (s.consider cpu flags) ⟨none, 9, none⟩).best

def handleSource (s : IntrState) (h : Handle) : Nat :=
  match h.sharedVectorDesc with
  | some n => (((s.findDescForInt h.intno).bind fun d => d.sharedVecInfo.find? (·.id = n)).map
      (·.source)).getD 0
  | none => ((s.findDescForInt h.intno).map (·.source)).getD 0

def setDisabled (s : IntrState) (k : Nat) (h : Handle) (b : Bool) (line : Nat) : IntrState :=
  { s.modifyDesc h.intno fun d => { d with
      sharedVecInfo := d.sharedVecInfo.map fun n =>
        if some n.id = h.sharedVectorDesc then { n with disabled := b } else n } with
    matrix := Function.update s.matrix (s.handleSource h) line
    handles := Function.update s.handles k (some { h with disabled := b }) }

def espIntrEnable (s : IntrState) (k : Nat) (h : Handle) : IntrState :=
  s.setDisabled k h false h.intno

def espIntrDisable (s : IntrState) (k : Nat) (h : Handle) : IntrState :=
  s.setDisabled k h true intMuxDisabledIntno

end IntrState

structure AllocArgs where
  source : Nat
  flags : Nat
  handler : Nat
  arg : Nat
  retHandle : Bool
  mallocRet : Bool
  mallocDesc : Bool
  mallocShared : Bool
  deriving DecidableEq, Repr

namespace AllocArgs

def isShared (a : AllocArgs) : Bool := a.flags.testBit 8

def isIram (a : AllocArgs) : Bool := a.flags.testBit 10

def intrDisabled (a : AllocArgs) : Bool := a.flags.testBit 11

def valid (a : AllocArgs) : Bool :=
  !(a.isShared && a.flags.testBit 9) && !(a.flags &&& 0xF0 != 0 && a.handler != 0) &&
  !(a.isShared && a.handler == 0) &&
  !(a.isIram && 0x400C0000 ≤ a.handler && a.handler < 0x50000000)

def levelFlags (a : AllocArgs) : Nat :=
  if a.flags &&& 0xFE = 0 then (if a.isShared then a.flags ||| 2 else a.flags ||| 0xE) else a.flags

end AllocArgs

/-- A call returns with a state or writes through a null pointer. -/
inductive Outcome where
  | crash
  | ret (err : EspErr) (s : IntrState)

namespace IntrState

def install (a : AllocArgs) (k : Nat) (d : VectorDesc) : VectorDesc :=
  let d := if a.isShared then
      { d with
        sharedVecInfo := ⟨k, false, a.source, a.handler, a.arg⟩ :: d.sharedVecInfo
        shared := true }
    else { d with reserved := false, shared := false, nonshared := true, source := a.source }
  { d with inIram := a.isIram }

def newVector (s : IntrState) (a : AllocArgs) (intr : Nat) : Vector :=
  if a.isShared then .sharedIntrIsr intr
  else if a.handler ≠ 0 then .handler a.handler a.arg
  else s.table intr

def newHandle (s : IntrState) (a : AllocArgs) (intr : Nat) : Handle where
  intno := intr
  sharedVectorDesc := (s.findDescForInt intr).bind fun d => d.sharedVecInfo.head?.map (·.id)
  source := a.source
  isr := a.handler
  arg := a.arg
  disabled := false
  kept := a.retHandle

def connect (s : IntrState) (a : AllocArgs) (intr : Nat) : IntrState :=
  let s' := { s.modifyDesc intr (install a s.next) with
    table := Function.update s.table intr (s.newVector a intr)
    matrix := Function.update s.matrix a.source intr
    intenable := Function.update s.intenable intr true }
  { s' with
    handles := Function.update s.handles s.next (some (s'.newHandle a intr))
    next := s.next + 1 }

def withDesc (s : IntrState) (intr : Nat) (malloc : Bool) : Option (Option IntrState) :=
  if (s.findDescForInt intr).isSome then some (some s)
  else if !malloc then some none
  else (insertVectorDesc s.vectors (.empty intr)).map fun vs => some { s with vectors := vs }

def allocOn (s : IntrState) (a : AllocArgs) (intr : Nat) : Outcome :=
  if a.isShared && !a.mallocShared then .ret .noMem s
  else
    let s' := s.connect a intr
    .ret .ok (if a.intrDisabled then s'.espIntrDisable s.next (s'.newHandle a intr) else s')

def espIntrAlloc (cpu : Fin 2) (s : IntrState) (a : AllocArgs) : Outcome :=
  if !a.valid then .ret .invalidArg s
  else if !a.mallocRet then .ret .noMem s
  else match s.getFreeInt cpu a.levelFlags with
    | none => .ret .notFound s
    | some intr => match s.withDesc intr a.mallocDesc with
      | none => .crash
      | some none => .ret .noMem s
      | some (some s) => s.allocOn a intr

def removeShared (h : Handle) (d : VectorDesc) : VectorDesc :=
  { d with sharedVecInfo := d.sharedVecInfo.eraseP fun n => some n.id = h.sharedVectorDesc }

def clearFlags (d : VectorDesc) : VectorDesc :=
  { d with reserved := false, inIram := false, shared := false, nonshared := false }

def release (s : IntrState) (k : Nat) (h : Handle) : IntrState :=
  let d := s.descOrEmpty h.intno
  let s := if d.shared then s.modifyDesc h.intno (removeShared h) else s
  let freeSharedVector := d.shared && (removeShared h d).sharedVecInfo.isEmpty
  let s := if d.nonshared || freeSharedVector then
      { s.modifyDesc h.intno clearFlags with table := Function.update s.table h.intno .unhandled }
    else s
  { s with handles := Function.update s.handles k none }

def espIntrFree (s : IntrState) (k : Nat) (h : Handle) : IntrState :=
  (s.espIntrDisable k h).release k h

def calls (s : IntrState) (line : Nat) : List (Nat × Nat) :=
  match s.table line with
  | .unhandled => []
  | .handler isr arg => [(isr, arg)]
  | .sharedIntrIsr n => ((s.findDescForInt n).map fun d =>
      (d.sharedVecInfo.filter (!·.disabled)).map fun n => (n.isr, n.arg)).getD []

end IntrState

/-! ### Calls -/

inductive IntrCall where
  | alloc (a : AllocArgs)
  | free (k : Nat)
  | enable (k : Nat)
  | disable (k : Nat)
  deriving DecidableEq, Repr

def IntrState.owned (s : IntrState) (k : Nat) : Option Handle :=
  (s.handles k).filter (·.kept)

def intrStep (cpu : Fin 2) (s : IntrState) : IntrCall → Option IntrState
  | .alloc a => match s.espIntrAlloc cpu a with
    | .crash => none
    | .ret _ s => some s
  | .free k => (s.owned k).map (s.espIntrFree k)
  | .enable k => (s.owned k).map (s.espIntrEnable k)
  | .disable k => (s.owned k).map (s.espIntrDisable k)

def IntrState.initial (matrix : Nat → Nat) : IntrState :=
  ⟨[], fun _ => .unhandled, matrix, fun _ => false, fun _ => none, 0⟩

structure Enabled (s : IntrState) (k : Nat) (h : Handle) : Prop where
  live : s.handles k = some h
  on : h.disabled = false
  handler : h.isr ≠ 0

/-- Every enabled handler is run when its source fires: the source is routed to its line, the line
is enabled, and the vector of the line calls the handler. -/
def HandlersRun (s : IntrState) : Prop :=
  ∀ k h, Enabled s k h → s.matrix h.source = h.intno ∧ s.intenable h.intno = true ∧
    (h.isr, h.arg) ∈ s.calls h.intno

def allocLine (cpu : Fin 2) (s : IntrState) (a : AllocArgs) : Option Nat :=
  if a.valid && a.mallocRet && (!a.isShared || a.mallocShared) then
    (s.getFreeInt cpu a.levelFlags).filter fun intr =>
      (s.findDescForInt intr).isSome || a.mallocDesc
  else none

/-- The enabled handlers of the call's source, but for the one that the call is about, are on the
line to which the call routes the source. -/
def SourceKept (cpu : Fin 2) (s : IntrState) : IntrCall → Prop
  | .alloc a => ∀ line, allocLine cpu s a = some line → ∀ k h, Enabled s k h →
      h.source = a.source → a.intrDisabled = false ∧ h.intno = line
  | .free k => ∀ h, s.owned k = some h → ∀ k' h', Enabled s k' h' → k' ≠ k → h'.source ≠ h.source
  | .enable k => ∀ h, s.owned k = some h → ∀ k' h', Enabled s k' h' → h'.source = h.source →
      h'.intno = h.intno
  | .disable k => ∀ h, s.owned k = some h → ∀ k' h', Enabled s k' h' → k' ≠ k →
      h'.source ≠ h.source

end EspIdf.IntrAlloc
