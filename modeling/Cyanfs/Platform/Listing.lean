/-
# Listing files, devices and backends

`cyanfs_list` of `core/super.c`, `cyanfs_ctl_device_list` and
`cyanfs_ctl_backend_list` of `linux/ctl.c`.  Each takes the last result as a
cursor, adds one to the last part of its key and returns the first entry of a
tree from there on.  What happens at the top of the range differs:

* `cyanfs_list` tests for the largest file id (`listsAll_files`);
* `cyanfs_ctl_device_list` does not, and its file id wraps to 0
  (`listsAll_devices_iff`);
* `cyanfs_ctl_backend_list` lets the minor run into the major, where `MKDEV` is
  an "or": this is a carry if the major is even, and goes back to the first minor
  if it is odd (`mkdev_succ`, `listsAll_backends_iff`).
-/

import Cyanfs.Core.Table
import Cyanfs.Lib.Rb
import Mathlib.Data.Prod.Lex

namespace Cyanfs

open Lib Std

/-- Listing is complete: the calls from `c` return the results that are expected,
each once and with ascending keys, and then report the end. -/
def ListsAll {σ κ : Type} [LT κ] (next : σ → Option σ) (c : σ) (key : σ → κ) (expected : σ → Prop) :
    Prop :=
  ∃ l, Lists next c l ∧ l.Pairwise (fun v w => key v < key w) ∧ ∀ v, v ∈ l ↔ expected v

/-! ### Files -/

/-- `struct cyanfs_file_meta`. -/
structure FileMeta where
  id : ℕ
  parentId : ℕ
  name : FileName
  size : ℕ
  extents : ℕ
  children : ℕ

/-- `cyanfs_list_init_iter`. -/
def FileMeta.init : FileMeta := ⟨0, 0, ⟨List.replicate 128 0, rfl⟩, 0, 0, 0⟩

/-- The field `meta` of a file. -/
def File.meta (f : File) : FileMeta :=
  ⟨f.id, f.parentId, f.name, f.size, f.extentCount, f.children⟩

/-- `files_by_id` as a tree. -/
def Super.fileTree (s : Super) : Rb ℕ File :=
  ⟨s.filesById.toList, by
    have h := ExtTreeMap.ordered_keys_toList (t := s.filesById)
    exact h.imp fun h => compare_lt_iff_lt.1 h⟩

/-- `cyanfs_list`. -/
def Super.list (s : Super) (iter : FileMeta) : Except Err FileMeta :=
  match s.ensureStatus with
  | some e => .error e
  | none =>
      if iter.id = u64Max then .error .noent
      else
        match s.fileTree.nfind (iter.id + 1) with
        | some e => .ok e.2.meta
        | none => .error .noent

/-! ### Devices and backends -/

/-- `MKDEV` with a `dev_t` of 32 bits. -/
def mkdev (major minor : ℕ) : ℕ := (major <<< 20 ||| minor) % 2 ^ 32

/-- `MAJOR`. -/
def devMajor (d : ℕ) : ℕ := d >>> 20

/-- `MINOR`. -/
def devMinor (d : ℕ) : ℕ := d &&& 1048575

/-- `struct cyanfs_dev`. -/
structure Dev where
  major : ℕ
  minor : ℕ
deriving DecidableEq

/-- The device numbers of a `dev_t`. -/
def Dev.of (d : ℕ) : Dev := ⟨devMajor d, devMinor d⟩

/-- The key of `cyanfs_backend_rb`. -/
def Dev.key (v : Dev) : ℕ := mkdev v.major v.minor

/-- Where `cyanfs_ctl_backend_list` starts to look. -/
def Dev.seek (v : Dev) : ℕ := mkdev v.major ((v.minor + 1) % 2 ^ 32)

/-- `cyanfs_ctl_backend_list`; nothing for `-ENODEV`. -/
def backendList {β : Type} (backends : Rb ℕ β) (v : Dev) : Option Dev :=
  (backends.nfind v.seek).map fun e => Dev.of e.1

/-- `cyanfs_ioctl_device_list_t`. -/
structure DeviceEntry where
  dev : Dev
  id : ℕ
  vdisk : ℕ
deriving DecidableEq

/-- The key of `cyanfs_block_device_rb`: the backend, then the file. -/
abbrev DeviceKey := ℕ ×ₗ ℕ

namespace DeviceEntry

/-- What `cyanfs_ctl_device_list` returns for a device; `vdisk` is its id. -/
def of (e : DeviceKey × ℕ) : DeviceEntry := ⟨Dev.of (ofLex e.1).1, (ofLex e.1).2, e.2⟩

/-- The key of the device. -/
def key (v : DeviceEntry) : DeviceKey := toLex (v.dev.key, v.id)

/-- Where `cyanfs_ctl_device_list` starts to look. -/
def seek (v : DeviceEntry) : DeviceKey := toLex (v.dev.key, (v.id + 1) % 2 ^ 64)

end DeviceEntry

/-- `cyanfs_ctl_device_list`; nothing for `-ENODEV`. -/
def deviceList (devices : Rb DeviceKey ℕ) (v : DeviceEntry) : Option DeviceEntry :=
  (devices.nfind v.seek).map .of

/-! ### Device numbers -/

theorem devMajor_eq (d : ℕ) : devMajor d = d / 1048576 := Nat.shiftRight_eq_div_pow d 20

theorem devMinor_eq (d : ℕ) : devMinor d = d % 1048576 := Nat.and_two_pow_sub_one_eq_mod d 20

theorem mkdev_of_lt {major minor : ℕ} (h : minor < 1048576) :
    mkdev major minor = (major * 1048576 + minor) % 2 ^ 32 := by
  rw [mkdev, ← Nat.shiftLeft_add_eq_or_of_lt (i := 20) h, Nat.shiftLeft_eq]

theorem mkdev_self {d : ℕ} (h : d < 2 ^ 32) : mkdev (devMajor d) (devMinor d) = d := by
  rw [devMajor_eq, devMinor_eq, mkdev_of_lt (Nat.mod_lt _ (by decide))]
  omega

theorem or_one (n : ℕ) : n ||| 1 = if n % 2 = 1 then n else n + 1 := by
  have hor : n / 2 * 2 ||| 1 = n / 2 * 2 + 1 := by
    have h := Nat.shiftLeft_add_eq_or_of_lt (i := 1) (b := 1) (by decide) (n / 2)
    rw [Nat.shiftLeft_eq, Nat.pow_one] at h
    exact h.symm
  split_ifs with hn
  · have h : n / 2 * 2 + 1 = n := by omega
    rw [← h, ← hor, Nat.or_assoc, Nat.or_self]
  · have h : n / 2 * 2 = n := by omega
    rwa [h] at hor

/-- **The cursor behind a backend.**  The minor is one of 20 bits; the last one
of an odd major leads back to the first. -/
theorem mkdev_succ {d : ℕ} (h : d < 2 ^ 32) :
    mkdev (devMajor d) ((devMinor d + 1) % 2 ^ 32) =
      if devMinor d = 1048575 ∧ devMajor d % 2 = 1 then devMajor d * 1048576 else d + 1 := by
  have hminor : devMinor d < 1048576 := by
    rw [devMinor_eq]
    exact Nat.mod_lt _ (by decide)
  have hd : d = devMajor d * 1048576 + devMinor d := by
    rw [devMajor_eq, devMinor_eq]
    omega
  rw [Nat.mod_eq_of_lt (show devMinor d + 1 < 2 ^ 32 by omega)]
  generalize devMajor d = major at *
  generalize devMinor d = minor at *
  by_cases hlast : minor = 1048575
  · subst hlast
    rw [mkdev, show 1048575 + 1 = 1 <<< 20 from rfl, ← Nat.shiftLeft_or_distrib, or_one,
      Nat.shiftLeft_eq]
    split_ifs with h₁ h₂ h₂ <;> omega
  · rw [mkdev_of_lt (by omega), if_neg (fun h => hlast h.1)]
    omega

/-! ### Files are listed -/

theorem Super.mem_fileTree {s : Super} {id : ℕ} {f : File} :
    (id, f) ∈ s.fileTree.entries ↔ s.filesById[id]? = some f :=
  ExtTreeMap.mem_toList_iff_getElem?_eq_some

/-- **Every file is listed**, the one with the largest id last. -/
theorem listsAll_files {s : Super} (hs : s.ensureStatus = none)
    (hid : ∀ id f, s.filesById[id]? = some f → f.id = id ∧ 1 ≤ id ∧ id ≤ u64Max) :
    ListsAll (fun iter => (s.list iter).toOption) .init FileMeta.id
      fun v => ∃ (id : ℕ) (f : File), s.filesById[id]? = some f ∧ v = f.meta := by
  -- the guard at the largest id only spares a search that finds nothing
  have hnext : ∀ iter, (s.list iter).toOption =
      (s.fileTree.nfind (iter.id + 1)).map fun e => e.2.meta := fun iter => by
    unfold Super.list
    rw [hs]
    simp only
    split_ifs with h
    · rw [Rb.nfind_eq_none.2 fun e he => ?_]
      · rfl
      · have := (hid e.1 e.2 (Super.mem_fileTree.1 he)).2.2
        omega
    · cases s.fileTree.nfind (iter.id + 1) <;> rfl
  have hkey : ∀ e ∈ s.fileTree.entries, e.2.meta.id = e.1 := fun e he =>
    (hid e.1 e.2 (Super.mem_fileTree.1 he)).1
  refine ⟨_, Lists.of_separates hnext [] rfl (by simp) (fun e he => ?_)
    (fun e he f _ => ?_), ?_, fun v => ?_⟩
  · exact (hid e.1 e.2 (Super.mem_fileTree.1 he)).2.1
  · rw [hkey e he]
    exact Nat.succ_le_iff
  · exact Lists.ascending s.fileTree.sorted hkey
  · rw [List.mem_map]
    constructor
    · rintro ⟨e, he, rfl⟩
      exact ⟨e.1, e.2, Super.mem_fileTree.1 he, rfl⟩
    · rintro ⟨id, f, hf, rfl⟩
      exact ⟨(id, f), Super.mem_fileTree.2 hf, rfl⟩

/-! ### Devices are listed -/

theorem succ_u64Max_mod : (u64Max + 1) % 2 ^ 64 = 0 := by
  norm_num

theorem lex_succ_le {a b : ℕ} {c : DeviceKey} : toLex (a, b + 1) ≤ c ↔ toLex (a, b) < c := by
  rw [Prod.Lex.le_iff, Prod.Lex.lt_iff]
  exact Iff.rfl

section Devices

variable {D : Rb DeviceKey ℕ}
  (hD : ∀ e ∈ D.entries, (ofLex e.1).1 < 2 ^ 32 ∧ 1 ≤ (ofLex e.1).2 ∧ (ofLex e.1).2 ≤ u64Max)

include hD

theorem key_device {e : DeviceKey × ℕ} (he : e ∈ D.entries) : (DeviceEntry.of e).key = e.1 := by
  rw [DeviceEntry.of, DeviceEntry.key, Dev.key, Dev.of, mkdev_self (hD e he).1]
  rfl

theorem seek_device {e : DeviceKey × ℕ} (he : e ∈ D.entries) :
    (DeviceEntry.of e).seek = toLex ((ofLex e.1).1, ((ofLex e.1).2 + 1) % 2 ^ 64) := by
  rw [DeviceEntry.of, DeviceEntry.seek, Dev.key, Dev.of, mkdev_self (hD e he).1]

/-- **Devices are listed exactly if no file with the largest id is mapped.** -/
theorem listsAll_devices_iff :
    ListsAll (deviceList D) ⟨⟨0, 0⟩, 0, 0⟩ DeviceEntry.key (fun v => ∃ e ∈ D.entries, v = .of e) ↔
      ∀ e ∈ D.entries, (ofLex e.1).2 ≠ u64Max := by
  have hnext : ∀ v, deviceList D v = (D.nfind v.seek).map .of := fun _ => rfl
  constructor
  · rintro ⟨l, hl, hp, hmem⟩ e he htop
    refine Lists.not_ascending hnext (fun _ => key_device hD) he ?_ hl hp
      ((hmem _).2 ⟨e, he, rfl⟩)
    rw [seek_device hD he, htop, succ_u64Max_mod]
    exact Prod.Lex.le_iff.2 (.inr ⟨rfl, Nat.zero_le _⟩)
  · intro h
    refine ⟨_, Lists.of_separates hnext [] rfl (by simp) (fun e he => ?_)
      (fun e he f hf => ?_), ?_, fun v => ?_⟩
    · have hpos := (hD e he).2.1
      change toLex (0, 0 + 1) ≤ e.1
      rw [lex_succ_le, Prod.Lex.lt_iff]
      rcases Nat.eq_zero_or_pos (ofLex e.1).1 with h0 | h0
      · exact .inr ⟨h0.symm, hpos⟩
      · exact .inl h0
    · have hlt : (ofLex e.1).2 + 1 < 2 ^ 64 := by
        have := h e he
        have := (hD e he).2.2
        simp only [u64Max] at *
        omega
      rw [seek_device hD he, Nat.mod_eq_of_lt hlt, lex_succ_le]
      exact Iff.rfl
    · exact Lists.ascending D.sorted fun _ => key_device hD
    · rw [List.mem_map]
      exact ⟨fun ⟨e, he, hv⟩ => ⟨e, he, hv.symm⟩, fun ⟨e, he, hv⟩ => ⟨e, he, hv.symm⟩⟩

end Devices

/-! ### Backends are listed -/

section Backends

variable {β : Type} {B : Rb ℕ β} (hB : ∀ e ∈ B.entries, e.1 < 2 ^ 32)

include hB

/-- **Backends are listed exactly if none is the last minor of an odd major.**
The backend `0:0` is not returned, because the search starts behind it. -/
theorem listsAll_backends_iff :
    ListsAll (backendList B) ⟨0, 0⟩ Dev.key (fun v => ∃ e ∈ B.entries, e.1 ≠ 0 ∧ v = Dev.of e.1) ↔
      ∀ e ∈ B.entries, ¬ (devMinor e.1 = 1048575 ∧ devMajor e.1 % 2 = 1) := by
  have hnext : ∀ v, backendList B v = (B.nfind v.seek).map fun e => Dev.of e.1 := fun _ => rfl
  have hkey : ∀ e ∈ B.entries, (Dev.of e.1).key = e.1 := fun e he => mkdev_self (hB e he)
  constructor
  · rintro ⟨l, hl, hp, hmem⟩ e he hlast
    have hne : e.1 ≠ 0 := fun h => by
      rw [h] at hlast
      exact absurd hlast.1 (by decide)
    refine Lists.not_ascending hnext hkey he ?_ hl hp ((hmem _).2 ⟨e, he, hne, rfl⟩)
    change mkdev (devMajor e.1) ((devMinor e.1 + 1) % 2 ^ 32) ≤ e.1
    rw [mkdev_succ (hB e he), if_pos hlast, devMajor_eq]
    exact Nat.div_mul_le_self _ _
  · intro h
    obtain ⟨pre, suf, hsplit, hpre, hsuf⟩ := B.exists_split 1
    have hmem : ∀ e ∈ suf, e ∈ B.entries := fun e he => by
      rw [hsplit]
      exact List.mem_append_right _ he
    refine ⟨_, Lists.of_separates hnext pre hsplit hpre hsuf (fun e he f _ => ?_),
      Lists.ascending (List.pairwise_append.1 (hsplit ▸ B.sorted)).2.1
        fun e he => hkey e (hmem e he), fun v => ?_⟩
    · change mkdev (devMajor e.1) ((devMinor e.1 + 1) % 2 ^ 32) ≤ f.1 ↔ _
      rw [mkdev_succ (hB e (hmem e he)), if_neg (h e (hmem e he))]
      exact Nat.succ_le_iff
    · rw [List.mem_map]
      constructor
      · rintro ⟨e, he, rfl⟩
        exact ⟨e, hmem e he, Nat.one_le_iff_ne_zero.1 (hsuf e he), rfl⟩
      · rintro ⟨e, he, hne, rfl⟩
        rw [hsplit] at he
        rcases List.mem_append.1 he with he | he
        · exact absurd (Nat.lt_one_iff.1 (hpre e he)) hne
        · exact ⟨e, he, rfl⟩

end Backends

/-- **When listing enumerates everything once and stops:** files always;
devices exactly if no file with the id `2^64 - 1` is mapped; backends exactly if
none is the minor `2^20 - 1` of an odd major. -/
theorem listing_complete_iff {β : Type} (s : Super) (D : Rb DeviceKey ℕ) (B : Rb ℕ β)
    (hs : s.ensureStatus = none)
    (hfiles : ∀ id f, s.filesById[id]? = some f → f.id = id ∧ 1 ≤ id ∧ id ≤ u64Max)
    (hD : ∀ e ∈ D.entries, (ofLex e.1).1 < 2 ^ 32 ∧ 1 ≤ (ofLex e.1).2 ∧ (ofLex e.1).2 ≤ u64Max)
    (hB : ∀ e ∈ B.entries, e.1 < 2 ^ 32) :
    (ListsAll (fun iter => (s.list iter).toOption) .init FileMeta.id
        (fun v => ∃ (id : ℕ) (f : File), s.filesById[id]? = some f ∧ v = f.meta) ∧
      ListsAll (deviceList D) ⟨⟨0, 0⟩, 0, 0⟩ DeviceEntry.key
        (fun v => ∃ e ∈ D.entries, v = .of e) ∧
      ListsAll (backendList B) ⟨0, 0⟩ Dev.key
        (fun v => ∃ e ∈ B.entries, e.1 ≠ 0 ∧ v = Dev.of e.1)) ↔
    (∀ e ∈ D.entries, (ofLex e.1).2 ≠ u64Max) ∧
      ∀ e ∈ B.entries, ¬ (devMinor e.1 = 1048575 ∧ devMajor e.1 % 2 = 1) := by
  rw [listsAll_devices_iff hD, listsAll_backends_iff hB]
  exact and_iff_right (listsAll_files hs hfiles)

/-- Three files, three devices and three backends are listed; the last minor of the major 8 carries
into the next. -/
theorem listing_complete_iff_several :
    let s : Super := ((({ Super.opened 16 false false ⟨List.replicate 16 7, rfl⟩ (fun _ => 0) with
      ready := true }).setFile (Super.newFile FileMeta.init.name 1 none)).setFile
      (Super.newFile FileMeta.init.name 2 none)).setFile (Super.newFile FileMeta.init.name 7 none)
    let D : Rb DeviceKey ℕ := ⟨[(toLex (mkdev 8 0, 1), 0), (toLex (mkdev 8 0, 7), 1),
      (toLex (mkdev 259 0, 2), 2)], by decide⟩
    let B : Rb ℕ Unit := ⟨[(mkdev 8 0, ()), (mkdev 8 1048575, ()), (mkdev 259 0, ())], by decide⟩
    ListsAll (fun iter => (s.list iter).toOption) .init FileMeta.id
        (fun v => ∃ (id : ℕ) (f : File), s.filesById[id]? = some f ∧ v = f.meta) ∧
      ListsAll (deviceList D) ⟨⟨0, 0⟩, 0, 0⟩ DeviceEntry.key
        (fun v => ∃ e ∈ D.entries, v = .of e) ∧
      ListsAll (backendList B) ⟨0, 0⟩ Dev.key
        (fun v => ∃ e ∈ B.entries, e.1 ≠ 0 ∧ v = Dev.of e.1) := by
  intro s D B
  have hfiles : ∀ id f, s.filesById[id]? = some f → f.id = id ∧ 1 ≤ id ∧ id ≤ u64Max := by
    intro id f hf
    simp only [s, Super.filesById_setFile, Super.newFile] at hf
    split_ifs at hf with h₁ h₂ h₃
    · obtain rfl := Option.some.inj hf
      exact ⟨h₁.symm, by omega, by simp [h₁, u64Max]⟩
    · obtain rfl := Option.some.inj hf
      exact ⟨h₂.symm, by omega, by simp [h₂, u64Max]⟩
    · obtain rfl := Option.some.inj hf
      exact ⟨h₃.symm, by omega, by simp [h₃, u64Max]⟩
    · simp [Super.opened] at hf
  exact (listing_complete_iff s D B rfl hfiles (by decide) (by decide)).2 ⟨by decide, by decide⟩

/-- **Two listings that never end.**  A mapped file with the largest id is
returned again and again, and so is the last minor of the major 259. -/
theorem listing_repeats :
    let D : Rb DeviceKey ℕ := ⟨[(toLex (mkdev 8 0, u64Max), 0)], List.pairwise_singleton _ _⟩
    let B : Rb ℕ Unit := ⟨[(mkdev 259 1048575, ())], List.pairwise_singleton _ _⟩
    (deviceList D ⟨⟨0, 0⟩, 0, 0⟩ = some ⟨⟨8, 0⟩, u64Max, 0⟩ ∧
      deviceList D ⟨⟨8, 0⟩, u64Max, 0⟩ = some ⟨⟨8, 0⟩, u64Max, 0⟩ ∧
      ¬ ListsAll (deviceList D) ⟨⟨0, 0⟩, 0, 0⟩ DeviceEntry.key
        (fun v => ∃ e ∈ D.entries, v = .of e)) ∧
    (backendList B ⟨0, 0⟩ = some ⟨259, 1048575⟩ ∧
      backendList B ⟨259, 1048575⟩ = some ⟨259, 1048575⟩ ∧
      ¬ ListsAll (backendList B) ⟨0, 0⟩ Dev.key
        (fun v => ∃ e ∈ B.entries, e.1 ≠ 0 ∧ v = Dev.of e.1)) := by
  intro D B
  refine ⟨⟨by decide, by decide, fun h => ?_⟩, ⟨by decide, by decide, fun h => ?_⟩⟩
  · exact (listsAll_devices_iff (by decide)).1 h _ List.mem_cons_self rfl
  · exact (listsAll_backends_iff (by decide)).1 h _ List.mem_cons_self ⟨by decide, by decide⟩

end Cyanfs
