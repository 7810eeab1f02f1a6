/-
# The registry of backends and block devices

`linux/ctl.c` keeps two trees: the mounted backends by device number, and the
mapped block devices by backend and file.  `cyanfs_ctl_backend_mount`,
`cyanfs_ctl_backend_umount`, `cyanfs_ctl_device_map` and
`cyanfs_ctl_device_unmap` run under one lock.  A backend counts its place in the
tree and its devices, a device counts its place in the tree and the processes
that hold it open, and the last reference to a device is dropped by a work item
(`cyanfs_block_device_free_work`) that closes the file.  Opening and closing of
files is that of the core.  What the kernel promises about a step is `Ctl.Kernel`.

A file can be mapped read-only more than once, but the tree has one place for it:
`CYANFS_RB_INSERT` leaves the entry that is there.
-/

import Cyanfs.Data.Handles
import Cyanfs.Platform.Listing
import Cyanfs.Platform.DirectIo

namespace Cyanfs

open Lib Std

/-- `-ENODEV`. -/
abbrev enodev : ℤ := -19

/-- `-EBUSY`. -/
abbrev ebusy : ℤ := -16

/-- `CYANFS_ERR_*` on Linux. -/
def Err.errno : Err → ℤ
  | .inval => einval
  | .noent => -2
  | .exist => -17
  | .busy => ebusy
  | .nospace => enospc
  | .nomem => enomem
  | .io => -5

/-- `struct cyanfs_backend`. -/
structure Backend where
  devId : ℕ
  ref : ℕ
  sup : Super

/-- `struct cyanfs_block_device`.  `opens` counts the processes that hold the
device open. -/
structure BlockDevice where
  backend : ℕ
  fileId : ℕ
  write : Bool
  ref : ℕ
  opens : ℕ

/-- The state of `linux/ctl.c`.  `live` and `disks` are the objects that are
allocated, a backend under its address and a device under the id that
`cyanfs_idr_alloc` has given it; `mapped` are the devices that a map has returned
and no unmap has removed. -/
structure Ctl where
  backends : Rb ℕ ℕ
  devices : Rb DeviceKey ℕ
  live : Rb ℕ Backend
  disks : Rb ℕ BlockDevice
  mapped : Finset ℕ
  fresh : ℕ

/-- A super as `cyanfs_backend_open` returns it: its files are those that the
loader has made, and none is open. -/
structure LoadedSuper where
  sup : Super
  keyed : sup.Keyed
  closed : ∀ id, sup.modes id = (.closed, 0)

namespace Ctl

/-- `cyanfs_ctl_register`. -/
def init : Ctl := ⟨.empty, .empty, .empty, .empty, ∅, 0⟩

variable (σ : Ctl)

/-- `cyanfs_backend_put`, with `cyanfs_backend_close` for the last reference. -/
def putBackend (o : ℕ) : Ctl :=
  match σ.live.find o with
  | none => σ
  | some b =>
      if b.ref - 1 = 0 then { σ with live := σ.live.erase o }
      else { σ with live := σ.live.modify o fun b => { b with ref := b.ref - 1 } }

/-- `cyanfs_ctl_backend_mount`; `opened` is how `cyanfs_backend_open` ends. -/
def mount (dev : Dev) (opened : Except ℤ LoadedSuper) : Ctl × ℤ :=
  match opened with
  | .error e => (σ, e)
  | .ok s =>
      ({ σ with
        live := σ.live.insert σ.fresh ⟨dev.key, 1, s.sup⟩
        backends := σ.backends.insert dev.key σ.fresh
        fresh := σ.fresh + 1 }, 0)

/-- The device that `cyanfs_ctl_backend_umount` finds belongs to the backend. -/
def busy (o devId : ℕ) : Bool :=
  match σ.devices.nfind (toLex (devId, 0)) with
  | none => false
  | some (_, c) =>
      match σ.disks.find c with
      | none => false
      | some x => x.backend = o

/-- `cyanfs_ctl_backend_umount`. -/
def umount (dev : Dev) : Ctl × ℤ :=
  match σ.backends.find dev.key with
  | none => (σ, enodev)
  | some o =>
      if σ.busy o dev.key then (σ, ebusy)
      else (putBackend { σ with backends := σ.backends.erase dev.key } o, 0)

/-- `cyanfs_ctl_device_map` with the id `vdisk` from `cyanfs_idr_alloc`.  The
allocations of `cyanfs_block_device_alloc` succeed; it still refuses an empty
file, and closes it. -/
def map (dev : Dev) (id : UInt64) (readonly : Bool) (vdisk : ℕ) : Ctl × ℤ :=
  match σ.backends.find dev.key with
  | none => (σ, enodev)
  | some o =>
      match σ.live.find o with
      | none => (σ, enodev)
      | some b =>
          match b.sup.openFile id.toNat (!readonly) with
          | .error e => (σ, e.errno)
          | .ok s =>
              match s.filesById[id.toNat]? with
              | none => (σ, enodev)
              | some f =>
                  if f.size = 0 then
                    ({ σ with live := σ.live.modify o fun b => { b with sup := s.closeFile f } },
                      einval)
                  else
                    ({ σ with
                      live := σ.live.modify o fun b => { b with ref := b.ref + 1, sup := s }
                      disks := σ.disks.insert vdisk ⟨o, id.toNat, !readonly, 1, 0⟩
                      devices := σ.devices.insert (toLex (dev.key, id.toNat)) vdisk
                      mapped := insert vdisk σ.mapped }, 0)

/-- `cyanfs_ctl_device_unmap`. -/
def unmap (dev : Dev) (id : UInt64) : Ctl × ℤ :=
  match σ.devices.find (toLex (dev.key, id.toNat)) with
  | none => (σ, enodev)
  | some c =>
      ({ σ with
        devices := σ.devices.erase (toLex (dev.key, id.toNat))
        disks := σ.disks.modify c fun x => { x with ref := x.ref - 1 }
        mapped := σ.mapped.erase c }, 0)

/-- `cyanfs_block_device_free_work`, which the last `cyanfs_block_device_put`
schedules. -/
def freeWork (c : ℕ) (x : BlockDevice) : Ctl :=
  match σ.live.find x.backend with
  | none => σ
  | some b =>
      match b.sup.filesById[x.fileId]? with
      | none => σ
      | some f =>
          putBackend { σ with
            live := σ.live.modify x.backend fun b => { b with sup := b.sup.closeFile f }
            disks := σ.disks.erase c } x.backend

end Ctl

/-- What can happen: the four ioctls, a process that opens or releases a block
device, and the work item of a device. -/
inductive CtlOp where
  | mount (dev : Dev) (opened : Except ℤ LoadedSuper)
  | umount (dev : Dev)
  | map (dev : Dev) (id : UInt64) (readonly : Bool) (vdisk : ℕ)
  | unmap (dev : Dev) (id : UInt64)
  | hold (c : ℕ)
  | release (c : ℕ)
  | work (c : ℕ)

/-- One step. -/
def Ctl.step (σ : Ctl) : CtlOp → Option Ctl
  | .mount dev opened => some (σ.mount dev opened).1
  | .umount dev => some (σ.umount dev).1
  | .map dev id readonly vdisk => some (σ.map dev id readonly vdisk).1
  | .unmap dev id => some (σ.unmap dev id).1
  | .hold c => (σ.disks.find c).map fun _ => { σ with
      disks := σ.disks.modify c fun x => { x with ref := x.ref + 1, opens := x.opens + 1 } }
  | .release c => (σ.disks.find c).map fun _ => { σ with
      disks := σ.disks.modify c fun x => { x with ref := x.ref - 1, opens := x.opens - 1 } }
  | .work c => (σ.disks.find c).map fun x => σ.freeWork c x

/-- What the kernel promises: a device that is open exclusively is not opened once
more (`exclusive`); the allocator gives an id that is not in use (`idr`); a process
opens a device that somebody has a reference to (`held`) and releases what it has
opened (`opened`); and a work item runs when it was scheduled, which the last
reference does (`scheduled`). -/
inductive Ctl.Kernel (σ : Ctl) : CtlOp → Prop
  | exclusive {dev : Dev} {s : LoadedSuper}
      (h : ∀ o b, σ.live.find o = some b → b.devId ≠ dev.key) : σ.Kernel (.mount dev (.ok s))
  | failed {dev : Dev} {e : ℤ} : σ.Kernel (.mount dev (.error e))
  | umount {dev : Dev} : σ.Kernel (.umount dev)
  | idr {dev : Dev} {id : UInt64} {readonly : Bool} {vdisk : ℕ} (h : σ.disks.find vdisk = none) :
      σ.Kernel (.map dev id readonly vdisk)
  | unmap {dev : Dev} {id : UInt64} : σ.Kernel (.unmap dev id)
  | held {c : ℕ} {x : BlockDevice} (hx : σ.disks.find c = some x) (h : x.ref ≠ 0) :
      σ.Kernel (.hold c)
  | opened {c : ℕ} {x : BlockDevice} (hx : σ.disks.find c = some x) (h : x.opens ≠ 0) :
      σ.Kernel (.release c)
  | scheduled {c : ℕ} {x : BlockDevice} (hx : σ.disks.find c = some x) (h : x.ref = 0) :
      σ.Kernel (.work c)

end Cyanfs
