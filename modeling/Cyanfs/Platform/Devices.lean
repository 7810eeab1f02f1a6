/-
# The registry is complete

Over `Platform.Registry`: in every state of every run in which each map is of a
file that has no device in the tree, the devices in the tree are those that are
mapped, each with its file open, and a backend is unmounted only without them
(`registry_complete`).  The invariant `Ctl.Inv` counts references: a backend has
one for its place in the tree and one for each of its devices, a device one for
its place in the tree and one for each process that holds it open, and the
handles that the core has handed out are those of the devices (`diskHandles`).

Two read-only maps of one file leave the second device outside the tree: it can
neither be listed nor unmapped, and its backend can be unmounted under it
(`registry_loses`).
-/

import Cyanfs.Data.Handles
import Cyanfs.Platform.Registry

namespace Cyanfs

open Lib Std

/-! ### Handles of a super -/

/-- The handles that are out agree with the files of a super. -/
structure Super.HandlesFit (s : Super) (h : Handles) : Prop where
  keyed : s.Keyed
  fits : ∀ id, h.Fits id (s.modes id)
  leaf : s.Leaf

namespace Super.HandlesFit

variable {s s' : Super} {h : Handles} {id : ℕ} {w : Bool}

/-- A file with a handle exists. -/
theorem exists_file (hs : s.HandlesFit h) (hout : 0 < h.count id w) :
    ∃ f, s.filesById[id]? = some f ∧ f.openType = if w then .readwrite else .readonly := by
  have hfit := hs.fits id
  cases hf : s.filesById[id]? with
  | none =>
      rw [Super.modes, hf] at hfit
      obtain ⟨-, h₁, h₂⟩ := hfit
      cases w <;> simp [Handles.count, h₁, h₂] at hout
  | some f =>
      rw [Super.modes_of_file hf] at hfit
      refine ⟨f, rfl, ?_⟩
      cases hm : f.openType with
      | closed =>
          rw [hm] at hfit
          obtain ⟨-, h₁, h₂⟩ := hfit
          cases w <;> simp [Handles.count, h₁, h₂] at hout
      | readonly =>
          rw [hm] at hfit
          cases w with
          | false => rfl
          | true => simp [Handles.count, hfit.2.2] at hout
      | readwrite =>
          rw [hm] at hfit
          cases w with
          | false => simp [Handles.count, hfit.2.1] at hout
          | true => rfl

theorem keyed_openFile (hk : s.Keyed) (ho : s.openFile id w = .ok s') : s'.Keyed := by
  unfold Super.openFile at ho
  split at ho
  · cases ho
  split at ho
  · cases ho
  split_ifs at ho <;> obtain rfl := Except.ok.inj ho <;> exact Super.setFile_keyed hk _

theorem keyed_closeFile (hk : s.Keyed) (f : File) : (s.closeFile f).Keyed := by
  unfold Super.closeFile
  split
  · unfold Super.bugOn
    split <;> exact hk
  · exact Super.setFile_keyed hk _
  · exact Super.setFile_keyed hk _

/-- A system around a super; only its super matters for the handles. -/
def around (s : Super) : Sys := { Sys.opened 0 false false s.uuid (fun _ => 0) with sup := s }

/-- `cyanfs_open` hands out a handle. -/
theorem openFile (hs : s.HandlesFit h) (ho : s.openFile id w = .ok s') :
    s'.HandlesFit (h.add id w) := by
  have hh : (around s).HandlesOk h := ⟨hs.fits, hs.leaf⟩
  have h' := Sys.handlesOk_open (σ := around s) hs.keyed hh ho
  exact ⟨keyed_openFile hs.keyed ho, h'.fits, h'.leaf⟩

/-- `cyanfs_close` takes one back. -/
theorem closeFile {f : File} (hs : s.HandlesFit h) (hf : s.filesById[id]? = some f)
    (hout : 0 < h.count id w) : (s.closeFile f).HandlesFit (h.remove id w) := by
  obtain rfl := hs.keyed id f hf
  have hh : (around s).HandlesOk h := ⟨hs.fits, hs.leaf⟩
  have h' := (Sys.handlesOk_close (σ := around s) hf hh hout).2
  exact ⟨keyed_closeFile hs.keyed f, h'.fits, h'.leaf⟩

end Super.HandlesFit

/-- No handle is out on a super that was just loaded. -/
theorem LoadedSuper.handlesFit (s : LoadedSuper) : s.sup.HandlesFit .none := by
  refine ⟨s.keyed, fun id => ?_, fun id f hf hm => ?_⟩
  · rw [s.closed id]
    exact ⟨rfl, rfl, rfl⟩
  · have hc := s.closed id
    rw [Super.modes_of_file hf, hm] at hc
    cases congrArg Prod.fst hc

namespace Handles

theorem eq_of_count {h h' : Handles} (hc : ∀ i w, h.count i w = h'.count i w) : h = h' := by
  have hr : h.read = h'.read := funext fun i => hc i false
  have hw : h.write = h'.write := funext fun i => hc i true
  cases h
  cases h'
  simp_all

theorem count_add_eq (h : Handles) (id i : ℕ) (w v : Bool) :
    (h.add id w).count i v = h.count i v + if i = id ∧ v = w then 1 else 0 := by
  by_cases hi : i = id <;> cases w <;> cases v <;> simp [add, count, hi]

theorem count_remove_eq (h : Handles) (id i : ℕ) (w v : Bool) :
    (h.remove id w).count i v = h.count i v - if i = id ∧ v = w then 1 else 0 := by
  by_cases hi : i = id <;> cases w <;> cases v <;> simp [remove, count, hi]

theorem count_add (h : Handles) (id : ℕ) (w : Bool) :
    (h.add id w).count id w = h.count id w + 1 := by
  cases w <;> simp [add, count]

theorem remove_add (h : Handles) (id : ℕ) (w : Bool) : (h.add id w).remove id w = h := by
  cases w <;> simp [add, remove]

end Handles

/-- The handles of the devices of a backend. -/
def diskHandles (disks : Rb ℕ BlockDevice) (o : ℕ) : Handles where
  read i := disks.count fun x => x.backend = o ∧ x.fileId = i ∧ x.write = false
  write i := disks.count fun x => x.backend = o ∧ x.fileId = i ∧ x.write = true

section Disks

variable {disks : Rb ℕ BlockDevice} {c o : ℕ} {x : BlockDevice}

theorem count_diskHandles (i : ℕ) (w : Bool) : (diskHandles disks o).count i w =
    disks.count fun x => x.backend = o ∧ x.fileId = i ∧ x.write = w := by
  cases w <;> rfl

theorem decide_handle (hb : x.backend = o) (i : ℕ) (w : Bool) :
    decide (x.backend = o ∧ x.fileId = i ∧ x.write = w) = true ↔ i = x.fileId ∧ w = x.write := by
  rw [decide_eq_true_eq]
  exact ⟨fun h => ⟨h.2.1.symm, h.2.2.symm⟩, fun h => ⟨hb, h.1.symm, h.2.symm⟩⟩

theorem diskHandles_insert (h : disks.find c = none) : diskHandles (disks.insert c x) o =
    if x.backend = o then (diskHandles disks o).add x.fileId x.write else diskHandles disks o := by
  refine Handles.eq_of_count fun i w => ?_
  rw [count_diskHandles, Rb.count_insert h]
  by_cases hb : x.backend = o
  · rw [if_pos hb, Handles.count_add_eq, count_diskHandles, if_congr (decide_handle hb i w) rfl rfl]
  · rw [if_neg hb, count_diskHandles]
    simp [hb]

theorem diskHandles_erase (h : disks.find c = some x) : diskHandles (disks.erase c) o =
    if x.backend = o then (diskHandles disks o).remove x.fileId x.write else diskHandles disks o := by
  refine Handles.eq_of_count fun i w => ?_
  have hcount := Rb.count_erase (p := fun x => x.backend = o ∧ x.fileId = i ∧ x.write = w) h
  rw [count_diskHandles]
  by_cases hb : x.backend = o
  · rw [if_pos hb, Handles.count_remove_eq, count_diskHandles, hcount,
      if_congr (decide_handle hb i w) rfl rfl, Nat.add_sub_cancel]
  · rw [if_neg hb, count_diskHandles, hcount]
    simp [hb]

theorem diskHandles_modify {g : BlockDevice → BlockDevice}
    (hg : ∀ x, (g x).backend = x.backend ∧ (g x).fileId = x.fileId ∧ (g x).write = x.write) :
    diskHandles (disks.modify c g) o = diskHandles disks o := by
  have h : ∀ p : BlockDevice → Bool, (∀ x, p (g x) = p x) →
      (disks.modify c g).count p = disks.count p := fun p hp => Rb.count_modify hp
  unfold diskHandles
  congr 1 <;> funext i <;> exact h _ fun x => by simp only [(hg x).1, (hg x).2.1, (hg x).2.2]

theorem diskHandles_eq_none (h : ∀ c x, disks.find c = some x → x.backend ≠ o) :
    diskHandles disks o = .none := by
  refine Handles.eq_of_count fun i w => ?_
  rw [count_diskHandles, Rb.count_eq_zero.2 fun c x hx => by simp [h c x hx]]
  cases w <;> rfl

/-- A device has a handle. -/
theorem diskHandles_pos (h : disks.find c = some x) :
    0 < (diskHandles disks x.backend).count x.fileId x.write := by
  rw [count_diskHandles, Rb.count_erase h]
  simp

end Disks

/-! ### The invariant -/

theorem Dev.key_lt (dev : Dev) : dev.key < 2 ^ 32 := Nat.mod_lt _ (by decide)

namespace Ctl

/-- What holds between calls, while every map is of a file without a device in
the tree.  `extra` counts references to a backend that are about to be dropped. -/
structure Inv (σ : Ctl) (extra : ℕ → ℕ) : Prop where
  /-- the devices in the tree are those that are mapped -/
  reg : ∀ c, c ∈ σ.mapped ↔ ∃ k, σ.devices.find k = some c
  /-- a device stands in the tree at its backend and its file -/
  place : ∀ k c, σ.devices.find k = some c → ∃ x b, σ.disks.find c = some x ∧
    σ.live.find x.backend = some b ∧ k = toLex (b.devId, x.fileId)
  /-- the references to a device; its file id has 64 bits -/
  disk : ∀ c x, σ.disks.find c = some x →
    x.ref = x.opens + (if c ∈ σ.mapped then 1 else 0) ∧ x.fileId < 2 ^ 64 ∧
      ∃ b, σ.live.find x.backend = some b
  /-- the references to a backend -/
  refs : ∀ o b, σ.live.find o = some b → b.ref = extra o +
    (if σ.backends.find b.devId = some o then 1 else 0) + σ.disks.count fun x => x.backend = o
  tree : ∀ d o, σ.backends.find d = some o → ∃ b, σ.live.find o = some b ∧ b.devId = d
  /-- a device number is held by one backend -/
  held : ∀ o o' b b', σ.live.find o = some b → σ.live.find o' = some b' → b.devId = b'.devId →
    o = o'
  /-- addresses are not used again; a device number has 32 bits -/
  fresh : ∀ o b, σ.live.find o = some b → o < σ.fresh ∧ b.devId < 2 ^ 32
  /-- the files that are open are those of the devices -/
  files : ∀ o b, σ.live.find o = some b → b.sup.HandlesFit (diskHandles σ.disks o)

variable {σ : Ctl}

theorem inv_init : init.Inv 0 := by
  refine ⟨fun c => ?_, ?_, ?_, ?_, ?_, ?_, ?_, ?_⟩ <;> simp [init]

section Modify

variable {t : Rb ℕ Backend} {g : Backend → Backend} {o o' : ℕ}

theorem of_find_modify (hg : ∀ b, (g b).devId = b.devId) {b' : Backend}
    (h : (t.modify o g).find o' = some b') :
    ∃ b, t.find o' = some b ∧ b'.devId = b.devId ∧ b' = if o' = o then g b else b := by
  obtain ⟨b, hb, rfl⟩ := Rb.find_modify_eq_some.1 h
  refine ⟨b, hb, ?_, rfl⟩
  split_ifs
  · exact hg b
  · rfl

theorem exists_find_modify (hg : ∀ b, (g b).devId = b.devId) {b : Backend} (h : t.find o' = some b) :
    ∃ b', (t.modify o g).find o' = some b' ∧ b'.devId = b.devId := by
  refine ⟨_, Rb.find_modify_eq_some.2 ⟨b, h, rfl⟩, ?_⟩
  split_ifs
  · exact hg b
  · rfl

end Modify

/-- One backend changes, together with the devices; the trees stay. -/
theorem Inv.modify {σ' : Ctl} {extra extra' : ℕ → ℕ} {o : ℕ} {g : Backend → Backend}
    (h : σ.Inv extra) (hg : ∀ b, (g b).devId = b.devId)
    (hreg : ∀ c, c ∈ σ'.mapped ↔ ∃ k, σ'.devices.find k = some c)
    (hbackends : σ'.backends = σ.backends) (hlive : σ'.live = σ.live.modify o g)
    (hfresh : σ'.fresh = σ.fresh)
    (hplace : ∀ k c, σ'.devices.find k = some c → ∃ x b, σ'.disks.find c = some x ∧
      σ.live.find x.backend = some b ∧ k = toLex (b.devId, x.fileId))
    (hdisk : ∀ c x, σ'.disks.find c = some x →
      x.ref = x.opens + (if c ∈ σ'.mapped then 1 else 0) ∧ x.fileId < 2 ^ 64 ∧
        ∃ b, σ.live.find x.backend = some b)
    (hrefs : ∀ o' b, σ.live.find o' = some b → (if o' = o then g b else b).ref = extra' o' +
      (if σ.backends.find b.devId = some o' then 1 else 0) + σ'.disks.count fun x => x.backend = o')
    (hfiles : ∀ o' b, σ.live.find o' = some b →
      (if o' = o then g b else b).sup.HandlesFit (diskHandles σ'.disks o')) :
    σ'.Inv extra' := by
  refine ⟨hreg, fun k c hk => ?_, fun c x hx => ?_, fun o' b' hb' => ?_, fun d o' hd => ?_,
    fun o₁ o₂ b₁ b₂ h₁ h₂ he => ?_, fun o' b' hb' => ?_, fun o' b' hb' => ?_⟩
  · obtain ⟨x, b, hx, hb, rfl⟩ := hplace k c hk
    obtain ⟨b', hb', he⟩ := exists_find_modify (o := o) hg hb
    exact ⟨x, b', hx, hlive ▸ hb', by rw [he]⟩
  · obtain ⟨hr, hid, b, hb⟩ := hdisk c x hx
    obtain ⟨b', hb', -⟩ := exists_find_modify (o := o) hg hb
    exact ⟨hr, hid, b', hlive ▸ hb'⟩
  · rw [hlive] at hb'
    obtain ⟨b, hb, he, rfl⟩ := of_find_modify hg hb'
    rw [hrefs o' b hb, hbackends, he]
  · rw [hbackends] at hd
    obtain ⟨b, hb, rfl⟩ := h.tree d o' hd
    obtain ⟨b', hb', he⟩ := exists_find_modify (o := o) hg hb
    exact ⟨b', hlive ▸ hb', he⟩
  · rw [hlive] at h₁ h₂
    obtain ⟨c₁, hc₁, he₁, -⟩ := of_find_modify hg h₁
    obtain ⟨c₂, hc₂, he₂, -⟩ := of_find_modify hg h₂
    exact h.held o₁ o₂ c₁ c₂ hc₁ hc₂ (by rw [← he₁, ← he₂, he])
  · rw [hlive] at hb'
    obtain ⟨b, hb, he, -⟩ := of_find_modify hg hb'
    rw [hfresh, he]
    exact h.fresh o' b hb
  · rw [hlive] at hb'
    obtain ⟨b, hb, -, rfl⟩ := of_find_modify hg hb'
    exact hfiles o' b hb

/-- A reference to a backend is dropped. -/
theorem Inv.putBackend {o : ℕ} (h : σ.Inv (Pi.single o 1)) : (σ.putBackend o).Inv 0 := by
  unfold Ctl.putBackend
  split
  · rename_i hnone
    refine { h with refs := fun o' b hb => ?_ }
    have hne : o' ≠ o := fun he => by
      rw [he, hnone] at hb
      cases hb
    simpa [hne] using h.refs o' b hb
  rename_i b hb
  have href := h.refs o b hb
  rw [Pi.single_eq_same] at href
  split_ifs with hlast
  · -- nothing refers to the backend any more
    have htree : ∀ d, σ.backends.find d ≠ some o := fun d hd => by
      obtain ⟨b', hb', rfl⟩ := h.tree d o hd
      obtain rfl := Option.some.inj (hb.symm.trans hb')
      rw [if_pos hd] at href
      omega
    have hdisk : ∀ c x, σ.disks.find c = some x → x.backend ≠ o := fun c x hx he => by
      have hzero : (σ.disks.count fun x => x.backend = o) = 0 := by omega
      have := Rb.count_eq_zero.1 hzero c x hx
      simp [he] at this
    refine ⟨h.reg, fun k c hk => ?_, fun c x hx => ?_, fun o' b' hb' => ?_, fun d o' hd => ?_,
      fun o₁ o₂ b₁ b₂ h₁ h₂ => ?_, fun o' b' hb' => ?_, fun o' b' hb' => ?_⟩
    · obtain ⟨x, b', hx, hb', rfl⟩ := h.place k c hk
      exact ⟨x, b', hx, by simpa [hdisk c x hx] using hb', rfl⟩
    · obtain ⟨hr, hid, b', hb'⟩ := h.disk c x hx
      exact ⟨hr, hid, b', by simpa [hdisk c x hx] using hb'⟩
    · simp only [Rb.find_erase] at hb'
      split_ifs at hb' with hne
      simpa [hne] using h.refs o' b' hb'
    · obtain ⟨b', hb', hd'⟩ := h.tree d o' hd
      have hne : o' ≠ o := fun he => htree d (he ▸ hd)
      exact ⟨b', by simpa [hne] using hb', hd'⟩
    · simp only [Rb.find_erase] at h₁ h₂
      split_ifs at h₁ h₂
      exact h.held o₁ o₂ b₁ b₂ h₁ h₂
    · simp only [Rb.find_erase] at hb'
      split_ifs at hb'
      exact h.fresh o' b' hb'
    · simp only [Rb.find_erase] at hb'
      split_ifs at hb'
      exact h.files o' b' hb'
  · refine h.modify (g := fun b => { b with ref := b.ref - 1 }) (fun _ => rfl) h.reg rfl rfl rfl
      h.place h.disk (fun o' b' hb' => ?_) fun o' b' hb' => ?_
    · have hr := h.refs o' b' hb'
      by_cases he : o' = o
      · subst he
        obtain rfl := Option.some.inj (hb.symm.trans hb')
        rw [if_pos rfl, Pi.zero_apply]
        simp only
        omega
      · rw [if_neg he]
        simpa [he] using hr
    · have hf := h.files o' b' hb'
      split_ifs <;> exact hf

/-! ### The calls keep it -/

theorem Inv.mount (h : σ.Inv 0) (dev : Dev) (s : LoadedSuper)
    (hfree : ∀ o b, σ.live.find o = some b → b.devId ≠ dev.key) :
    (σ.mount dev (.ok s)).1.Inv 0 := by
  simp only [Ctl.mount]
  have hnone : σ.live.find σ.fresh = none := by
    cases hf : σ.live.find σ.fresh with
    | none => rfl
    | some b => exact absurd (h.fresh _ b hf).1 (Nat.lt_irrefl _)
  have hkey : σ.backends.find dev.key = none := by
    cases hf : σ.backends.find dev.key with
    | none => rfl
    | some o =>
        obtain ⟨b, hb, he⟩ := h.tree _ o hf
        exact absurd he (hfree o b hb)
  -- no device belongs to the new backend
  have hdisk : ∀ c x, σ.disks.find c = some x → x.backend ≠ σ.fresh := fun c x hx he => by
    obtain ⟨-, -, b, hb⟩ := h.disk c x hx
    exact absurd (h.fresh _ b hb).1 (by rw [he]; exact Nat.lt_irrefl _)
  have hlive : ∀ {o b}, σ.live.find o = some b → o ≠ σ.fresh := fun hb he =>
    absurd (h.fresh _ _ hb).1 (by rw [he]; exact Nat.lt_irrefl _)
  have hold : ∀ {o b}, σ.live.find o = some b →
      (σ.live.insert σ.fresh ⟨dev.key, 1, s.sup⟩).find o = some b := fun hb => by
    rw [Rb.find_insert, if_neg (hlive hb), hb]
  have hnew : ∀ {o b}, (σ.live.insert σ.fresh ⟨dev.key, 1, s.sup⟩).find o = some b →
      (o = σ.fresh ∧ b = ⟨dev.key, 1, s.sup⟩) ∨ σ.live.find o = some b := fun {o b} hb => by
    rw [Rb.find_insert, hnone, Option.getD_none] at hb
    split_ifs at hb with he
    · exact .inl ⟨he, (Option.some.inj hb).symm⟩
    · exact .inr hb
  refine ⟨h.reg, fun k c hk => ?_, fun c x hx => ?_, fun o b hb => ?_, fun d o hd => ?_,
    fun o₁ o₂ b₁ b₂ h₁ h₂ he => ?_, fun o b hb => ?_, fun o b hb => ?_⟩
  · obtain ⟨x, b, hx, hb, rfl⟩ := h.place k c hk
    exact ⟨x, b, hx, hold hb, rfl⟩
  · obtain ⟨hr, hid, b, hb⟩ := h.disk c x hx
    exact ⟨hr, hid, b, hold hb⟩
  · obtain ⟨rfl, rfl⟩ | hb := hnew hb
    · have hzero : (σ.disks.count fun x => x.backend = σ.fresh) = 0 :=
        Rb.count_eq_zero.2 fun c x hx => by simp [hdisk c x hx]
      simp [hkey, hzero]
    · have hr := h.refs o b hb
      simpa [hfree o b hb] using hr
  · simp only [Rb.find_insert, hkey, Option.getD_none] at hd
    split_ifs at hd with he
    · obtain rfl := Option.some.inj hd
      exact ⟨_, by rw [Rb.find_insert, if_pos rfl, hnone], he.symm⟩
    · obtain ⟨b, hb, hd'⟩ := h.tree d o hd
      exact ⟨b, hold hb, hd'⟩
  · obtain ⟨rfl, rfl⟩ | h₁ := hnew h₁ <;> obtain ⟨rfl, rfl⟩ | h₂ := hnew h₂
    · rfl
    · exact absurd he.symm (hfree o₂ b₂ h₂)
    · exact absurd he (hfree o₁ b₁ h₁)
    · exact h.held o₁ o₂ b₁ b₂ h₁ h₂ he
  · obtain ⟨rfl, rfl⟩ | hb := hnew hb
    · exact ⟨Nat.lt_succ_self _, dev.key_lt⟩
    · exact ⟨Nat.lt_succ_of_lt (h.fresh o b hb).1, (h.fresh o b hb).2⟩
  · obtain ⟨rfl, rfl⟩ | hb := hnew hb
    · rw [diskHandles_eq_none hdisk]
      exact s.handlesFit
    · exact h.files o b hb

theorem Inv.umount (h : σ.Inv 0) (dev : Dev) : (σ.umount dev).1.Inv 0 := by
  unfold Ctl.umount
  split
  · exact h
  rename_i o ho
  split_ifs
  · exact h
  refine Inv.putBackend { h with refs := fun o' b' hb' => ?_, tree := fun d o' hd => ?_ }
  · obtain ⟨b, hb, hkey⟩ := h.tree _ o ho
    have hr := h.refs o' b' hb'
    by_cases he : o' = o
    · subst he
      obtain rfl := Option.some.inj (hb.symm.trans hb')
      rw [hkey, if_pos ho] at hr
      rw [Pi.single_eq_same, Rb.find_erase, if_pos hkey, if_neg (by simp), hr]
      simp
    · have hne : b'.devId ≠ dev.key := fun hk => he (h.held o' o b' b hb' hb (hk.trans hkey.symm))
      simpa [he, hne] using hr
  · simp only [Rb.find_erase] at hd
    split_ifs at hd
    exact h.tree d o' hd

/-- A device that is in use is not mapped anew. -/
theorem Inv.notMem_mapped (h : σ.Inv 0) {c : ℕ} (hc : σ.disks.find c = none) : c ∉ σ.mapped := by
  intro hm
  obtain ⟨k, hk⟩ := (h.reg c).1 hm
  obtain ⟨x, b, hx, -⟩ := h.place k c hk
  rw [hc] at hx
  cases hx

theorem Inv.map (h : σ.Inv 0) (dev : Dev) (id : UInt64) (readonly : Bool) {vdisk : ℕ}
    (hv : σ.disks.find vdisk = none) (hkey : σ.devices.find (toLex (dev.key, id.toNat)) = none) :
    (σ.map dev id readonly vdisk).1.Inv 0 := by
  unfold Ctl.map
  split
  · exact h
  rename_i o ho
  split
  · exact h
  rename_i b hb
  split
  · exact h
  rename_i s hs
  split
  · exact h
  rename_i f hf
  have hopen := (h.files o b hb).openFile hs
  have hsame : ∀ {b'}, σ.live.find o = some b' → b' = b := fun hb' =>
    Option.some.inj (hb'.symm.trans hb)
  split_ifs
  · -- an empty file is closed again
    have hclose := hopen.closeFile hf (w := !readonly) (by rw [Handles.count_add]; omega)
    rw [Handles.remove_add] at hclose
    refine h.modify (g := fun b => { b with sup := s.closeFile f }) (fun _ => rfl) h.reg rfl rfl rfl
      h.place h.disk (fun o' b' hb' => ?_) fun o' b' hb' => ?_
    · have hr := h.refs o' b' hb'
      split_ifs at hr ⊢ <;> exact hr
    · by_cases he : o' = o
      · subst he
        rw [if_pos rfl]
        exact hclose
      · rw [if_neg he]
        exact h.files o' b' hb'
  have hnot := h.notMem_mapped hv
  obtain ⟨b₀, hb₀, hdev⟩ := h.tree _ o ho
  obtain rfl := hsame hb₀
  have hne : ∀ {c x}, σ.disks.find c = some x → c ≠ vdisk := fun hx he => by
    rw [he, hv] at hx
    cases hx
  refine h.modify (g := fun b => { b with ref := b.ref + 1, sup := s }) (fun _ => rfl)
    (fun c => ?_) rfl rfl rfl (fun k c hk => ?_) (fun c x hx => ?_) (fun o' b' hb' => ?_)
    fun o' b' hb' => ?_
  · simp only [Finset.mem_insert, Rb.find_insert, hkey, Option.getD_none]
    constructor
    · rintro (rfl | hc)
      · exact ⟨_, if_pos rfl⟩
      · obtain ⟨k, hk⟩ := (h.reg c).1 hc
        refine ⟨k, ?_⟩
        rw [if_neg fun he => ?_, hk]
        rw [he, hkey] at hk
        cases hk
    · rintro ⟨k, hk⟩
      split_ifs at hk
      · exact .inl (Option.some.inj hk).symm
      · exact .inr ((h.reg c).2 ⟨k, hk⟩)
  · simp only [Rb.find_insert, hkey, Option.getD_none] at hk
    split_ifs at hk with he
    · obtain rfl := Option.some.inj hk
      refine ⟨⟨o, id.toNat, !readonly, 1, 0⟩, b₀, ?_, hb, by rw [he, hdev]⟩
      rw [Rb.find_insert, if_pos rfl, hv, Option.getD_none]
    · obtain ⟨x, b', hx, hb', rfl⟩ := h.place k c hk
      exact ⟨x, b', by rw [Rb.find_insert, if_neg (hne hx), hx], hb', rfl⟩
  · simp only [Rb.find_insert, hv, Option.getD_none] at hx
    split_ifs at hx with he
    · obtain rfl := Option.some.inj hx
      subst he
      exact ⟨by simp, id.toNat_lt, b₀, hb⟩
    · obtain ⟨hr, hlive⟩ := h.disk c x hx
      refine ⟨?_, hlive⟩
      simpa [he] using hr
  · have hr := h.refs o' b' hb'
    rw [Rb.count_insert hv]
    by_cases he : o' = o
    · subst he
      obtain rfl := hsame hb'
      rw [if_pos rfl]
      simp only [decide_true, if_true]
      omega
    · rw [if_neg he, hr]
      simp [Ne.symm he]
  · rw [diskHandles_insert hv]
    by_cases he : o' = o
    · subst he
      rw [if_pos rfl, if_pos rfl]
      exact hopen
    · rw [if_neg he, if_neg (Ne.symm he)]
      exact h.files o' b' hb'

/-- The references to one device change. -/
theorem Inv.modifyDisk {σ' : Ctl} {c : ℕ} {g : BlockDevice → BlockDevice} (h : σ.Inv 0)
    (hg : ∀ x, (g x).backend = x.backend ∧ (g x).fileId = x.fileId ∧ (g x).write = x.write)
    (hbackends : σ'.backends = σ.backends) (hlive : σ'.live = σ.live) (hfresh : σ'.fresh = σ.fresh)
    (hdisks : σ'.disks = σ.disks.modify c g)
    (hreg : ∀ c, c ∈ σ'.mapped ↔ ∃ k, σ'.devices.find k = some c)
    (hdevices : ∀ k c, σ'.devices.find k = some c → σ.devices.find k = some c)
    (hother : ∀ c', c' ≠ c → (c' ∈ σ'.mapped ↔ c' ∈ σ.mapped))
    (href : ∀ x, σ.disks.find c = some x →
      (g x).ref = (g x).opens + if c ∈ σ'.mapped then 1 else 0) : σ'.Inv 0 := by
  have hcount : ∀ o, (σ'.disks.count fun x => x.backend = o) = σ.disks.count fun x => x.backend = o :=
    fun o => by
      rw [hdisks]
      exact Rb.count_modify fun x => by rw [(hg x).1]
  have hsame : ∀ o, diskHandles σ'.disks o = diskHandles σ.disks o := fun o => by
    rw [hdisks, diskHandles_modify hg]
  refine ⟨hreg, fun k c' hk => ?_, fun c' x' hx' => ?_, fun o b hb => ?_, ?_, ?_, ?_, fun o b hb => ?_⟩
  · obtain ⟨x, b, hx, hb, rfl⟩ := h.place k c' (hdevices k c' hk)
    refine ⟨if c' = c then g x else x, b, ?_, ?_, ?_⟩
    · rw [hdisks]
      exact Rb.find_modify_eq_some.2 ⟨x, hx, rfl⟩
    · rw [hlive]
      split_ifs
      · rwa [(hg x).1]
      · exact hb
    · split_ifs
      · rw [(hg x).2.1]
      · rfl
  · rw [hdisks] at hx'
    obtain ⟨x, hx, rfl⟩ := Rb.find_modify_eq_some.1 hx'
    obtain ⟨hr, hid, b, hb⟩ := h.disk c' x hx
    by_cases he : c' = c
    · subst he
      rw [if_pos rfl]
      exact ⟨href x hx, by rw [(hg x).2.1]; exact hid, b, by rw [hlive, (hg x).1]; exact hb⟩
    · rw [if_neg he]
      refine ⟨?_, hid, b, by rw [hlive]; exact hb⟩
      rw [hr]
      simp only [hother c' he]
  · rw [hlive] at hb
    rw [hcount, hbackends]
    exact h.refs o b hb
  · rw [hbackends, hlive]
    exact h.tree
  · rw [hlive]
    exact h.held
  · rw [hlive, hfresh]
    exact h.fresh
  · rw [hlive] at hb
    rw [hsame]
    exact h.files o b hb

/-- A device stands in the tree once. -/
theorem Inv.key_unique (h : σ.Inv 0) {k k' : DeviceKey} {c : ℕ} (hk : σ.devices.find k = some c)
    (hk' : σ.devices.find k' = some c) : k = k' := by
  obtain ⟨x, b, hx, hb, rfl⟩ := h.place k c hk
  obtain ⟨x', b', hx', hb', rfl⟩ := h.place k' c hk'
  obtain rfl := Option.some.inj (hx.symm.trans hx')
  obtain rfl := Option.some.inj (hb.symm.trans hb')
  rfl

theorem Inv.unmap (h : σ.Inv 0) (dev : Dev) (id : UInt64) : (σ.unmap dev id).1.Inv 0 := by
  unfold Ctl.unmap
  split
  · exact h
  rename_i c hc
  refine h.modifyDisk (c := c) (g := fun x => { x with ref := x.ref - 1 }) (fun _ => ⟨rfl, rfl, rfl⟩)
    rfl rfl rfl rfl (fun c' => ?_) (fun k c' hk => ?_) (fun c' he => ?_) fun x hx => ?_
  · simp only [Finset.mem_erase, Rb.find_erase]
    constructor
    · rintro ⟨hne, hm⟩
      obtain ⟨k, hk⟩ := (h.reg c').1 hm
      refine ⟨k, ?_⟩
      rw [if_neg fun he => ?_, hk]
      rw [he, hc] at hk
      exact hne (Option.some.inj hk).symm
    · rintro ⟨k, hk⟩
      split_ifs at hk with he
      refine ⟨fun hcc => he ?_, (h.reg c').2 ⟨k, hk⟩⟩
      subst hcc
      exact h.key_unique hk hc
  · simp only [Rb.find_erase] at hk
    split_ifs at hk
    exact hk
  · simp [he]
  · have hr := (h.disk c x hx).1
    rw [if_pos ((h.reg c).2 ⟨_, hc⟩)] at hr
    simp [hr]

theorem Inv.work (h : σ.Inv 0) {c : ℕ} {x : BlockDevice} (hx : σ.disks.find c = some x)
    (hzero : x.ref = 0) : (σ.freeWork c x).Inv 0 := by
  unfold Ctl.freeWork
  split
  · exact h
  rename_i b hb
  split
  · exact h
  rename_i f hf
  have hr := (h.disk c x hx).1
  have hnot : c ∉ σ.mapped := fun hm => by
    rw [if_pos hm] at hr
    omega
  have hsame : ∀ {b'}, σ.live.find x.backend = some b' → b' = b := fun hb' =>
    Option.some.inj (hb'.symm.trans hb)
  have hclose := (h.files _ b hb).closeFile hf (diskHandles_pos hx)
  refine Inv.putBackend (h.modify (g := fun b => { b with sup := b.sup.closeFile f }) (fun _ => rfl)
    h.reg rfl rfl rfl (fun k c' hk => ?_) (fun c' x' hx' => ?_) (fun o' b' hb' => ?_)
    fun o' b' hb' => ?_)
  · obtain ⟨x', b', hx', hb', rfl⟩ := h.place k c' hk
    refine ⟨x', b', ?_, hb', rfl⟩
    rw [Rb.find_erase, if_neg fun he => hnot ((h.reg c).2 ⟨_, he ▸ hk⟩), hx']
  · simp only [Rb.find_erase] at hx'
    split_ifs at hx'
    exact h.disk c' x' hx'
  · have hrefs := h.refs o' b' hb'
    rw [Rb.count_erase hx] at hrefs
    by_cases he : o' = x.backend
    · subst he
      rw [if_pos rfl, Pi.single_eq_same]
      simp only [decide_true, if_true, Pi.zero_apply] at hrefs ⊢
      omega
    · rw [if_neg he]
      simpa [he, Ne.symm he] using hrefs
  · simp only
    rw [diskHandles_erase hx]
    by_cases he : o' = x.backend
    · subst he
      obtain rfl := hsame hb'
      rw [if_pos rfl, if_pos rfl]
      exact hclose
    · rw [if_neg he, if_neg (Ne.symm he)]
      exact h.files o' b' hb'

/-- A map is of a file that has no device in the tree. -/
def Unmapped (σ : Ctl) : CtlOp → Prop
  | .map dev id _ _ => σ.devices.find (toLex (dev.key, id.toNat)) = none
  | _ => True

theorem Inv.step {σ' : Ctl} {op : CtlOp} (h : σ.Inv 0) (hk : σ.Kernel op) (hop : σ.Unmapped op)
    (hs : σ.step op = some σ') : σ'.Inv 0 := by
  cases hk with
  | exclusive hfree =>
      obtain rfl := Option.some.inj hs
      exact h.mount _ _ hfree
  | failed =>
      obtain rfl := Option.some.inj hs
      exact h
  | umount =>
      obtain rfl := Option.some.inj hs
      exact h.umount _
  | idr hv =>
      obtain rfl := Option.some.inj hs
      exact h.map _ _ _ hv hop
  | unmap =>
      obtain rfl := Option.some.inj hs
      exact h.unmap _ _
  | held =>
      obtain ⟨-, -, rfl⟩ := Option.map_eq_some_iff.1 hs
      refine h.modifyDisk (g := fun x => { x with ref := x.ref + 1, opens := x.opens + 1 })
        (fun _ => ⟨rfl, rfl, rfl⟩) rfl rfl rfl rfl h.reg (fun _ _ hk => hk) (fun _ _ => Iff.rfl)
        fun x hx => ?_
      have hr := (h.disk _ x hx).1
      simp only
      omega
  | opened hx hpos =>
      obtain ⟨-, -, rfl⟩ := Option.map_eq_some_iff.1 hs
      refine h.modifyDisk (g := fun x => { x with ref := x.ref - 1, opens := x.opens - 1 })
        (fun _ => ⟨rfl, rfl, rfl⟩) rfl rfl rfl rfl h.reg (fun _ _ hk => hk) (fun _ _ => Iff.rfl)
        fun x' hx' => ?_
      obtain rfl := Option.some.inj (hx.symm.trans hx')
      have hr := (h.disk _ _ hx).1
      simp only
      omega
  | scheduled hx hzero =>
      obtain ⟨x, hx', rfl⟩ := Option.map_eq_some_iff.1 hs
      obtain rfl := Option.some.inj (hx.symm.trans hx')
      exact h.work hx hzero

/-! ### Completeness -/

/-- Reached from an empty registry by steps that all meet `C`, on a kernel that keeps its
promises. -/
inductive Reached (C : Ctl → CtlOp → Prop) : Ctl → Prop
  | init : Reached C init
  | step {σ σ' : Ctl} (h : Reached C σ) (op : CtlOp) (hk : σ.Kernel op) (hop : C σ op)
      (hs : σ.step op = some σ') : Reached C σ'

theorem Reached.inv (h : Reached Unmapped σ) : σ.Inv 0 := by
  induction h with
  | init => exact inv_init
  | step _ _ hk hop hs ih => exact ih.step hk hop hs

/-- The registry is complete. -/
structure Complete (σ : Ctl) : Prop where
  /-- the devices that are mapped are those in the tree -/
  registry : ∀ c, c ∈ σ.mapped ↔ ∃ k, (k, c) ∈ σ.devices.entries
  /-- each of them is listed, is removed by an unmap of its file, and has its file
  open -/
  usable : ∀ c ∈ σ.mapped, ∃ x b f, σ.disks.find c = some x ∧ σ.live.find x.backend = some b ∧
    (∃ v, deviceList σ.devices v = some ⟨Dev.of b.devId, x.fileId, c⟩) ∧
    ((σ.unmap (Dev.of b.devId) (.ofNat x.fileId)).2 = 0 ∧
      (σ.unmap (Dev.of b.devId) (.ofNat x.fileId)).1.mapped = σ.mapped.erase c) ∧
    b.sup.filesById[x.fileId]? = some f ∧ f.openType = if x.write then .readwrite else .readonly
  /-- a backend is unmounted only without mapped devices -/
  unmounts : ∀ dev o, σ.backends.find dev.key = some o → (σ.umount dev).2 = 0 →
    ∀ c ∈ σ.mapped, ∀ x, σ.disks.find c = some x → x.backend ≠ o

/-- A cursor from which a search starts at the given key. -/
theorem exists_seek {d i : ℕ} (hd : d < 2 ^ 32) (hi : i < 2 ^ 64) :
    ∃ v : DeviceEntry, v.seek = toLex (d, i) := by
  refine ⟨⟨Dev.of d, (i + (2 ^ 64 - 1)) % 2 ^ 64, 0⟩, ?_⟩
  have hkey : (Dev.of d).key = d := mkdev_self hd
  have hid : ((i + (2 ^ 64 - 1)) % 2 ^ 64 + 1) % 2 ^ 64 = i := by omega
  rw [DeviceEntry.seek, hkey, hid]

theorem Inv.complete (h : σ.Inv 0) : σ.Complete := by
  refine ⟨fun c => ?_, fun c hc => ?_, fun dev o ho hzero c hc x hx hback => ?_⟩
  · rw [h.reg c]
    simp only [Rb.find_eq_some]
  · obtain ⟨k, hk⟩ := (h.reg c).1 hc
    obtain ⟨x, b, hx, hb, rfl⟩ := h.place k c hk
    have hdev := (h.fresh _ b hb).2
    have hid := (h.disk c x hx).2.1
    obtain ⟨f, hf, hmode⟩ := (h.files _ b hb).exists_file (diskHandles_pos hx)
    refine ⟨x, b, f, hx, hb, ?_, ?_, hf, hmode⟩
    · obtain ⟨v, hv⟩ := exists_seek hdev hid
      refine ⟨v, ?_⟩
      rw [deviceList, hv, Rb.nfind_of_find hk]
      rfl
    · have hkey : toLex ((Dev.of b.devId).key, (UInt64.ofNat x.fileId).toNat) =
          toLex (b.devId, x.fileId) := by
        rw [show (Dev.of b.devId).key = b.devId from mkdev_self hdev,
          UInt64.toNat_ofNat_of_lt' hid]
      simp only [Ctl.unmap, hkey, hk, and_self]
  · -- the search from file 0 on meets a device of the backend
    obtain ⟨k, hk⟩ := (h.reg c).1 hc
    obtain ⟨x', b, hx', hb, rfl⟩ := h.place k c hk
    obtain rfl := Option.some.inj (hx.symm.trans hx')
    subst hback
    obtain ⟨b', hb', hkey⟩ := h.tree _ _ ho
    obtain rfl := Option.some.inj (hb.symm.trans hb')
    have hmem := Rb.find_eq_some.1 hk
    have hle : toLex (dev.key, 0) ≤ toLex (b.devId, x.fileId) :=
      Prod.Lex.le_iff.2 (.inr ⟨hkey.symm, Nat.zero_le _⟩)
    have hbusy : σ.busy x.backend dev.key = true := by
      unfold busy
      cases hn : σ.devices.nfind (toLex (dev.key, 0)) with
      | none => exact absurd hle (Rb.nfind_eq_none.1 hn _ hmem).not_ge
      | some e =>
          obtain ⟨he, hge, hleast⟩ := Rb.nfind_eq_some hn
          obtain ⟨x', b', hx', hb', hk'⟩ := h.place e.1 e.2 (Rb.find_eq_some.2 he)
          have hdev : b'.devId = b.devId := by
            have h₁ := hleast _ hmem hle
            rw [hk', Prod.Lex.le_iff] at hge h₁
            simp only [ofLex_toLex] at hge h₁
            omega
          simp only [hx', h.held _ _ _ _ hb' hb hdev, decide_true]
    rw [Ctl.umount, ho] at hzero
    simp [hbusy] at hzero

end Ctl

/-- **The device registry is complete** in every state of every run in which each
map is of a file that has no device in the tree. -/
theorem registry_complete {σ : Ctl} (h : Ctl.Reached Ctl.Unmapped σ) : σ.Complete :=
  h.inv.complete

/-- A file system with one file of 4 KiB. -/
def Super.withOneFile : Super :=
  { (Super.opened 16 false false ⟨List.replicate 16 1, rfl⟩ fun _ => 0).setFile
    { Super.newFile (FileName.ofCstr [1] (by decide)) 1 none with size := 4096 } with ready := true }

theorem Super.keyed_withOneFile (id : ℕ) (f : File)
    (hf : withOneFile.filesById[id]? = some f) : f.id = id := by
  simp only [withOneFile, setFile, opened, newFile] at hf
  grind

theorem Super.closed_withOneFile (id : ℕ) : withOneFile.modes id = (.closed, 0) := by
  by_cases hid : id = 1
  · subst hid
    rfl
  · simp [withOneFile, modes, setFile, opened, newFile]
    grind

/-- The same, as the loader gives it to the mount. -/
def oneFile : LoadedSuper := ⟨.withOneFile, Super.keyed_withOneFile, Super.closed_withOneFile⟩

/-- One map of the file. -/
theorem registry_complete_mapped :
    let σ := ((Ctl.init.mount ⟨8, 0⟩ (.ok oneFile)).1.map ⟨8, 0⟩ 1 true 0).1
    0 ∈ σ.mapped ∧ σ.Complete := by
  intro σ
  refine ⟨by decide, registry_complete ?_⟩
  have h₁ : Ctl.Reached Ctl.Unmapped (Ctl.init.mount ⟨8, 0⟩ (.ok oneFile)).1 :=
    .step .init (.mount ⟨8, 0⟩ (.ok oneFile)) (.exclusive (by simp [Ctl.init])) trivial rfl
  exact .step h₁ (.map ⟨8, 0⟩ 1 true 0) (.idr rfl) rfl rfl

/-- **A device that the registry loses.**  Two read-only maps of one file succeed,
but the second device is not in the tree; and once the first one is unmapped the
backend is unmounted while the second is still there. -/
theorem registry_loses :
    let σ₁ := (Ctl.init.mount ⟨8, 0⟩ (.ok oneFile)).1
    let σ₂ := (σ₁.map ⟨8, 0⟩ 1 true 0).1
    let σ₃ := (σ₂.map ⟨8, 0⟩ 1 true 1).1
    let σ₄ := (σ₃.unmap ⟨8, 0⟩ 1).1
    Ctl.Reached (fun _ _ => True) σ₄ ∧ (σ₂.map ⟨8, 0⟩ 1 true 1).2 = 0 ∧
      1 ∈ σ₃.mapped ∧ (∀ k, (k, 1) ∉ σ₃.devices.entries) ∧ ¬ σ₃.Complete ∧
      1 ∈ σ₄.mapped ∧ (σ₄.umount ⟨8, 0⟩).2 = 0 := by
  intro σ₁ σ₂ σ₃ σ₄
  have hentries : σ₃.devices.entries = [(toLex (mkdev 8 0, 1), 0)] := by decide
  have hlost : ∀ k, (k, 1) ∉ σ₃.devices.entries := by simp [hentries]
  have hmapped : 1 ∈ σ₃.mapped := by decide
  have h₁ : Ctl.Reached (fun _ _ => True) σ₁ :=
    .step .init (.mount ⟨8, 0⟩ (.ok oneFile)) (.exclusive (by simp [Ctl.init])) trivial rfl
  have h₃ : Ctl.Reached (fun _ _ => True) σ₃ :=
    .step (.step h₁ (.map ⟨8, 0⟩ 1 true 0) (.idr rfl) trivial rfl) (.map ⟨8, 0⟩ 1 true 1)
      (.idr rfl) trivial rfl
  have hrun : Ctl.Reached (fun _ _ => True) σ₄ :=
    .step h₃ (.unmap ⟨8, 0⟩ 1) .unmap trivial rfl
  refine ⟨hrun, by decide, hmapped, hlost, fun h => ?_, by decide, by decide⟩
  obtain ⟨k, hk⟩ := (h.registry 1).1 hmapped
  exact hlost k hk

end Cyanfs
