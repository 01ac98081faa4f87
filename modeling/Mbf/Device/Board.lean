import Mbf.Device.Registers
import Mbf.Lib.Runs
import Mathlib.Tactic.Common
import Mathlib.Logic.Function.Basic
import Mathlib.Data.Int.Notation

/-! # One board of the driver

The driver's object for a board, `struct amc525_mbf`, and everything that happens to it: the
probe and the removal of the board (`Owner`), and the calls on its device nodes (`File`).  A
step is one access to what the calls share: one atomic operation on `refcount`, one section
under `locking->mutex`, one resource taken or freed; steps of different calls interleave freely.

The kernel finds the nodes of the board from `cdev_add` to `cdev_del`, and calls
`amc525_mbf_open` some time after it has found a node.  It calls the release operation of a file
once, when no other operation on it is in progress.

The counters are unbounded here.  After the `kfree` of the object the model goes on with its last
contents; what runs on them is what `Input.OnFreed` speaks of. -/

namespace Mbf.Device

/-! ### State -/

/-- `fops_info`: the device nodes of a board. -/
inductive Minor where
  | reg
  | ddr0
  | ddr1
deriving DecidableEq, Repr

/-- How far the calls on one file have come. -/
inductive Stage where
  /-- The kernel has found the node. -/
  | entered
  /-- `atomic_inc_not_zero` has counted the file. -/
  | counted
  /-- `mbf_reg_open` has its context. -/
  | allocated (context : ℕ)
  /-- The open has failed after the file was counted. -/
  | failing (rc : Errno)
  /-- The open has returned an error. -/
  | failed (rc : Errno)
  | opened (context : ℕ)
  /-- The release operation has freed the context. -/
  | releasing
  | released
deriving DecidableEq, Repr

/-- The context the file keeps in `private_data`, while it is allocated. -/
def Stage.context : Stage → Option ℕ
  | .allocated context => some context
  | .opened context => some context
  | _ => none

/-- A file on one of the board's nodes. -/
structure File where
  minor : Minor
  stage : Stage
deriving DecidableEq, Repr

namespace File

/-- The open call has counted the file and has not yet returned. -/
def isOpening (f : File) : Bool :=
  match f.stage with
  | .counted => true
  | .allocated _ => true
  | .failing _ => true
  | _ => false

/-- The open call has succeeded and the file is not yet released. -/
def isOpen (f : File) : Bool :=
  match f.stage with
  | .opened _ => true
  | .releasing => true
  | _ => false

/-- A handle of the register device that can be used. -/
def isRegister (f : File) : Bool :=
  match f.minor, f.stage with
  | .reg, .opened _ => true
  | _, _ => false

end File

/-- What probing takes and removing gives back. -/
inductive Resource where
  /-- `get_free_board`. -/
  | number
  /-- The `struct amc525_mbf` itself. -/
  | memory
  /-- `enable_board`. -/
  | device
  /-- `initialise_board`: the BAR2 mapping, the DMA and the interrupt controller. -/
  | control
deriving DecidableEq, Repr

/-- Where `amc525_mbf_probe` or `amc525_mbf_remove` stands.  The failures are named by the label
they go to. -/
inductive Owner where
  | probing
  | numbered
  | allocated
  | enabled
  | initialised
  /-- The nodes exist. -/
  | live
  | noCdev
  | noInitialise
  | noEnable
  | noMemory
  | noBoard
  /-- `destroy_device_nodes` has returned. -/
  | unlinked
  /-- In `wait_for_completion`. -/
  | waiting
  /-- `wait_for_clients` has returned. -/
  | idle
  | terminated
  | disabled
  | unnumbered
  | removed
deriving DecidableEq, Repr

structure Board where
  owner : Owner
  /-- Number of file handles open (+1). -/
  refcount : ℤ
  /-- The number of `complete` calls not yet waited for. -/
  completion : ℕ
  locking : RegisterLocking
  files : List File
  /-- How often each resource was taken. -/
  taken : Resource → ℕ
  /-- How often each resource was freed. -/
  freed : Resource → ℕ

namespace Board

/-- Before the probe. -/
def start : Board := ⟨.probing, 0, 0, .unlocked, [], fun _ => 0, fun _ => 0⟩

def take (r : Resource) (s : Board) : Board :=
  { s with taken := Function.update s.taken r (s.taken r + 1) }

def free (r : Resource) (s : Board) : Board :=
  { s with freed := Function.update s.freed r (s.freed r + 1) }

/-- `amc525_mbf_release`, and the first half of `wait_for_clients`. -/
def amc525MbfRelease (s : Board) : Board :=
  { s with
    refcount := s.refcount - 1
    completion := if s.refcount - 1 = 0 then s.completion + 1 else s.completion }

/-- `kmalloc` may return any address that is not in use. -/
def isFresh (context : ℕ) (s : Board) : Bool :=
  s.files.all fun f => f.stage.context != some context

def setStage (i : ℕ) (f : File) (stage : Stage) (s : Board) : Board :=
  { s with files := s.files.set i { f with stage := stage } }

end Board

/-! ### Probe and removal -/

/-- One step of `amc525_mbf_probe`, which succeeds if `ok`, or of `amc525_mbf_remove`. -/
def ownerStep (ok : Bool) (s : Board) : Option Board :=
  match s.owner with
  | .probing => some (if ok then { s.take .number with owner := .numbered }
      else { s with owner := .noBoard })
  | .numbered => some (if ok then
        { s.take .memory with
          owner := .allocated, refcount := 1, completion := 0, locking := .unlocked }
      else { s with owner := .noMemory })
  | .allocated => some (if ok then { s.take .device with owner := .enabled }
      else { s with owner := .noEnable })
  | .enabled => some (if ok then { s.take .control with owner := .initialised }
      else { s with owner := .noInitialise })
  | .initialised => some { s with owner := if ok then .live else .noCdev }
  | .noCdev => some { s.free .control with owner := .noInitialise }
  | .noInitialise => some { s.free .device with owner := .noEnable }
  | .noEnable => some { s.free .memory with owner := .noMemory }
  | .noMemory => some { s.free .number with owner := .noBoard }
  | .noBoard => none
  | .live => some { s with owner := .unlinked }
  | .unlinked => some { s.amc525MbfRelease with owner := .waiting }
  | .waiting =>
      if 0 < s.completion then some { s with owner := .idle, completion := s.completion - 1 }
      else none
  | .idle => some { s.free .control with owner := .terminated }
  | .terminated => some { s.free .device with owner := .disabled }
  | .disabled => some { s.free .number with owner := .unnumbered }
  | .unnumbered => some { s.free .memory with owner := .removed }
  | .removed => none

/-! ### The calls on the device nodes -/

/-- The next step of the open or release call in progress on file `i`.  `kmalloc` is what a
`kmalloc` in it returns. -/
def proceed (i : ℕ) (kmalloc : Option ℕ) (s : Board) : Option Board :=
  match s.files[i]? with
  | none => none
  | some f =>
      match f.stage with
      | .entered =>
          -- `amc525_mbf_open`: check that the file handle is still live
          if s.refcount = 0 then some (s.setStage i f (.failed .enxio))
          else some { s.setStage i f .counted with refcount := s.refcount + 1 }
      | .counted =>
          match kmalloc with
          | none => some (s.setStage i f (.failing .enomem))
          | some context =>
              if s.isFresh context then
                match f.minor with
                | .reg => some (s.setStage i f (.allocated context))
                | _ => some (s.setStage i f (.opened context))
              else none
      | .allocated context =>
          match s.locking.mbfRegOpen with
          | .error rc => some (s.setStage i f (.failing rc))
          | .ok locking => some { s.setStage i f (.opened context) with locking := locking }
      | .failing rc => some (s.amc525MbfRelease.setStage i f (.failed rc))
      | .releasing => some (s.amc525MbfRelease.setStage i f .released)
      | _ => none

/-- The handle of file `i`, if an operation may be called on it. -/
def handle (i : ℕ) (s : Board) : Option (File × ℕ) :=
  match s.files[i]? with
  | some ⟨minor, .opened context⟩ => some (⟨minor, .opened context⟩, context)
  | _ => none

/-- What happens next. -/
inductive Input where
  /-- A step of the probe or the removal. -/
  | owner (ok : Bool)
  /-- The kernel finds a node for an open call. -/
  | enter (minor : Minor)
  /-- A step of the open or release call in progress on a file. -/
  | proceed (i : ℕ) (kmalloc : Option ℕ)
  /-- The `MBF_REG_LOCK` ioctl. -/
  | lock (i : ℕ)
  /-- The `MBF_REG_UNLOCK` ioctl. -/
  | unlock (i : ℕ)
  /-- Any other operation on a handle: read, poll, mmap, seek or another ioctl. -/
  | operate (i : ℕ)
  /-- The release operation, up to the `kfree` of the context. -/
  | release (i : ℕ)
deriving DecidableEq, Repr

/-- One step, and what the call returned to its caller. -/
def step (s : Board) : Input → Option (Board × Except Errno Unit)
  | .owner ok => (ownerStep ok s).map (·, .ok ())
  | .enter minor =>
      if s.owner = .live then some ({ s with files := s.files ++ [⟨minor, .entered⟩] }, .ok ())
      else none
  | .proceed i kmalloc => (proceed i kmalloc s).map (·, .ok ())
  | .lock i =>
      match handle i s with
      | some (⟨.reg, _⟩, context) =>
          let (rc, locking) := s.locking.lockRegister context
          some ({ s with locking := locking }, rc)
      | _ => none
  | .unlock i =>
      match handle i s with
      | some (⟨.reg, _⟩, context) =>
          let (rc, locking) := s.locking.unlockRegister context
          some ({ s with locking := locking }, rc)
      | _ => none
  | .operate i => (handle i s).map fun _ => (s, .ok ())
  | .release i =>
      match handle i s with
      | some (f, context) =>
          some (match f.minor with
            | .reg => { s.setStage i f .releasing with
                locking := s.locking.mbfRegRelease context }
            | _ => s.setStage i f .releasing, .ok ())
      | none => none

/-- The board, its clients and the kernel. -/
def machine : Runs.Machine Board Input (Except Errno Unit) where
  init s := s = .start
  step := step

end Mbf.Device
