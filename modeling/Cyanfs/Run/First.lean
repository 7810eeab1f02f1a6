/-
# A first write

A run that shows that the situations the theorems speak about arise: on a fresh
file system with room for data a file is made, grown and opened, and a write to it
is given an extent (`exists_writing`).
-/

import Cyanfs.Run.Boot

namespace Cyanfs

open Lib Std

namespace Super

/-- A super with a file of id 1, and the extents of `s₀`. -/
structure HasFile (s₀ s : Super) (f : File) : Prop where
  status : s.ensureStatus = none
  bug : s.bug = none
  file : s.filesById[1]? = some f
  free : s.free = s₀.free
  freeExtents : s.freeExtents = s₀.freeExtents
  reservedExtents : s.reservedExtents = s₀.reservedExtents
  current : s.writerCurrent = s₀.writerCurrent

variable {s₀ s : Super} {f : File}

theorem HasFile.setFile (h : HasFile s₀ s f) {g : File} (hg : g.id = 1) :
    HasFile s₀ (s.setFile g) g := by
  refine ⟨h.status, h.bug, ?_, h.free, h.freeExtents, h.reservedExtents, h.current⟩
  rw [filesById_setFile, if_pos hg.symm]

theorem HasFile.append (h : HasFile s₀ s f) (j : JEntry) : HasFile s₀ (s.append j) f :=
  ⟨h.status, h.bug, h.file, h.free, h.freeExtents, h.reservedExtents, h.current⟩

theorem hasFile_create (name : FileName) (hs : s.ensureStatus = none) (hb : s.bug = none)
    (hfiles : s.files = 0) (hmax : s.maxFileId = 0) (hid : s.filesById = ∅)
    (hname : s.filesByName name = none) :
    ∃ s', s.create name = .ok s' ∧ HasFile s s' (newFile name 1 none) := by
  have hl : s.lookupByName name = none := by simp [lookupByName, hname]
  let s₁ : Super := { s.setFile (newFile name 1 none) with
    filesByName := Function.update s.filesByName name (some 1)
    maxFileId := 1
    files := 1 }
  have hi : s.initFile name 1 none = .ok s₁ := by
    simp [initFile, hid, hname, hmax, hfiles, s₁]
  refine ⟨s₁.append ⟨.create 1 name, false⟩, ?_, ?_⟩
  · rw [create, hs]
    simp only [hfiles, hmax, hl, hi]
    rfl
  · have hf : HasFile s s₁ (newFile name 1 none) :=
      ⟨hs, hb, (filesById_setFile s _ 1).trans (if_pos rfl), rfl, rfl, rfl, rfl⟩
    exact hf.append _

theorem hasFile_truncate (h : HasFile s₀ s f) (hid : f.id = 1) (hmode : f.openType = .closed)
    (hc : f.children = 0) (hx : f.extents = ∅) (size : ℕ) :
    ∃ s', s.truncate 1 size = .ok s' ∧ HasFile s₀ s' { f with size := size } := by
  have hkeys : truncateKeys f size = [] := by
    unfold truncateKeys
    rw [hx]
    split_ifs <;> simp
  have ht : s.truncateFile f size = s.setFile { f with size := size } := by
    have hf : s.filesById[f.id]? = some f := by rw [hid, h.file]
    rw [truncateFile, hkeys, List.foldl_nil, updFile, hf]
    rfl
  refine ⟨(s.setFile { f with size := size }).append ⟨.truncate f.id size, true⟩, ?_, ?_⟩
  · rw [truncate, h.status]
    simp only [h.file]
    rw [if_neg (by simp [hmode, hc]), ht]
  · have hf : HasFile s₀ (s.setFile { f with size := size }) { f with size := size } := h.setFile hid
    exact hf.append _

theorem hasFile_open (h : HasFile s₀ s f) (hid : f.id = 1) (hmode : f.openType = .closed)
    (hc : f.children = 0) :
    ∃ s', s.openFile 1 true = .ok s' ∧ HasFile s₀ s' { f with openType := .readwrite } := by
  refine ⟨s.setFile { f with openType := .readwrite }, ?_, HasFile.setFile h hid⟩
  rw [openFile, h.status]
  simp [h.file, hmode, hc]

/-- An allocation succeeds while there is room and the node is free. -/
theorem exists_allocExtent (hroom : s.reservedExtents < s.freeExtents) (hne : s.free ≠ ∅) (off : ℕ)
    (hx : f.findExtent off = none) :
    ∃ b, s.allocExtent f off = some (s.superToFile f b (fileIndex (extentFrom off)),
      fileIndex (extentFrom off), b) := by
  have hleast : ∃ b, least s.free = some b :=
    Option.ne_none_iff_exists'.1 fun h => hne (least_eq_none.1 h)
  obtain ⟨b, hb⟩ : ∃ b, s.findNearlyExtent (s.allocFrom f off) = some b := by
    obtain ⟨b, hb⟩ := hleast
    unfold findNearlyExtent
    split_ifs
    · cases hl : least (s.free.filter (s.allocFrom f off ≤ ·)) with
      | none => exact ⟨b, by simp [hb]⟩
      | some c => exact ⟨c, rfl⟩
    · exact ⟨b, hb⟩
  refine ⟨b, ?_⟩
  have hm : s.mapExtent f b (extentFrom off) =
      .ok (s.superToFile f b (fileIndex (extentFrom off))) := by
    refine mapExtent_eq_ok.2 ⟨?_, rfl⟩
    exact hx
  rw [allocExtent, if_neg (by omega), hb]
  simp only [hm]

end Super

namespace Sys

variable {σ : Sys} {uuid u : Uuid} {disk : Buf} {total : ℕ}

theorem writeAlloc_fresh {τ : Sys} {c : Call} {io : IoCall} {f : File} {s : Super} {i b : ℕ}
    (hst : τ.sup.ensureStatus = none) (hx : f.findExtent io.off = none)
    (ha : τ.sup.allocExtent f io.off = some (s, i, b)) :
    τ.writeAlloc c io f none true = (τ.commit (s.append ⟨.bind f.id i b, false⟩)).writeMapped c
      { io with newJournal := true } ⟨b, false, false⟩ := by
  simp [writeAlloc, hst, hx, ha]

/-- A file is made, grown to one block and opened, and a write to it looks for its
extent. -/
def writeLabels (name : FileName) : List Label :=
  [.create name, .truncate 1 4096, .open 1 true, .write 1 0 4096,
    .call (.write ⟨1, 0, 4096, false⟩) true]

theorem step_call_eq {τ : Sys} {c : Call} (hb : τ.sup.bug = none) (hc : c ∈ τ.calls) (ok : Bool) :
    τ.step (.call c ok) = τ.callStep c ok := by
  rw [step, if_neg (by simp [hb])]
  exact if_pos hc

theorem step_get_eq {τ : Sys} {t : Task} {q : List Task} (hb : τ.sup.bug = none)
    (ha : τ.active = none) (hq : τ.queue = t :: q) :
    τ.step .get = some { τ with active := some t, queue := q } := by
  rw [step, if_neg (by simp [hb])]
  simp only [ha, hq]

/-- The executor gets a task and completes it. -/
theorem run_get_done {τ : Sys} {t : Task} {q : List Task} (hb : τ.sup.bug = none)
    (ha : τ.active = none) (hq : τ.queue = t :: q) (err m : Bool) (junk : Buf) (ls : List Label) :
    τ.run (.get :: .done err m junk :: ls) =
      ({ τ with active := none, queue := q }.runTask t err m junk).run ls := by
  have hdone : { τ with active := some t, queue := q }.step (.done err m junk) =
      some ({ τ with active := none, queue := q }.runTask t err m junk) := by
    rw [step, if_neg (by simp [hb])]
  rw [run, step_get_eq hb ha hq, Option.bind_some, run, hdone, Option.bind_some]

/-- The file of `writeLabels`, before the write. -/
def writableFile (name : FileName) : File :=
  { Super.newFile name 1 none with size := 4096, openType := .readwrite }

/-- A file on a fresh file system that is open for writing. -/
theorem exists_opened_file {discard compact : Bool} {name : FileName} (hn : name.Normal)
    (h : Mounted (Sys.opened total discard compact u disk) uuid σ) (hc : σ.calls = 0) :
    ∃ τ, σ.run [.create name, .truncate 1 4096, .open 1 true] = some τ ∧
      Super.HasFile σ.sup τ.sup (writableFile name) ∧
      τ.calls = .flusher superMaxInflightJournal false none ::ₘ
        .flusher superMaxInflightJournal false none ::ₘ 0 := by
  have hs := h.sup
  obtain ⟨s₁, h₁, hf₁⟩ := Super.hasFile_create (s := σ.sup) name (by rw [hs]; rfl)
    (by rw [hs]; rfl) (by rw [hs]; rfl) (by rw [hs]; rfl) (by rw [hs]; rfl) (by rw [hs]; rfl)
  obtain ⟨s₂, h₂, hf₂⟩ := Super.hasFile_truncate hf₁ rfl rfl rfl rfl 4096
  obtain ⟨s₃, h₃, hf₃⟩ := Super.hasFile_open hf₂ rfl rfl rfl
  let σ₁ := (σ.commit s₁).flushNewJournal
  let σ₂ := (σ₁.commit s₂).flushNewJournal
  have e₁ : σ.step (.create name) = some σ₁ := by
    rw [step, if_neg (by rw [hs]; simp [Sys.opened, Super.opened, Super.takeJournal])]
    simp only [show name.normalize = some name from hn, metaOp, h₁]
    rfl
  have e₂ : σ₁.step (.truncate 1 4096) = some σ₂ := by
    have hb : σ₁.sup.bug = none := hf₁.bug
    have ht : σ₁.sup.truncate 1 4096 = .ok s₂ := h₂
    rw [step, if_neg (by simp [hb])]
    simp only [show sizeValid 4096 by decide, if_true, metaOp, ht]
    rfl
  have e₃ : σ₂.step (.open 1 true) = some { σ₂ with sup := s₃ } := by
    have hb : σ₂.sup.bug = none := hf₂.bug
    have ho : σ₂.sup.openFile 1 true = .ok s₃ := h₃
    rw [step, if_neg (by simp [hb])]
    simp only [ho]
  refine ⟨{ σ₂ with sup := s₃ }, ?_, hf₃, ?_⟩
  · rw [run, e₁, Option.bind_some, run, e₂, Option.bind_some, run, e₃, Option.bind_some, run]
  · simp [σ₂, σ₁, addCall, flushNewJournal, commit, hc]

/-- The loop variables of the write of `writeLabels`. -/
abbrev firstIo : IoCall := ⟨1, 0, 4096, false⟩

/-- A write to the file comes to the section that allocates. -/
theorem step_first_write {s₀ : Super} {name : FileName} {τ : Sys}
    (h : Super.HasFile s₀ τ.sup (writableFile name)) :
    τ.step (.write 1 0 4096) = some (τ.addCall (.write firstIo)) ∧
    (τ.addCall (.write firstIo)).step (.call (.write firstIo) true) =
      some ((τ.addCall (.write firstIo)).setCall (.write firstIo) (.writeAlloc firstIo none)) := by
  constructor
  · rw [step, if_neg (by simp [h.bug])]
    simp only [h.file]
    rfl
  · have hf : (τ.addCall (.write firstIo)).sup.filesById[firstIo.file]? = _ := h.file
    have hst : (τ.addCall (.write firstIo)).sup.ensureStatus = none := h.status
    rw [step_call_eq (τ := τ.addCall (.write firstIo)) h.bug (Multiset.mem_cons_self _ _)]
    simp only [callStep, hf, Option.map_some, writeLookup, hst]
    rfl

/-- The section allocates, and calls the handler. -/
theorem step_first_alloc {s₀ : Super} {name : FileName} {τ : Sys}
    (h : Super.HasFile s₀ τ.sup (writableFile name)) (hroom : s₀.reservedExtents < s₀.freeExtents)
    (hfree : s₀.free ≠ ∅) (hc : .writeAlloc firstIo none ∈ τ.calls) :
    ∃ τ' b, τ.step (.call (.writeAlloc firstIo none) true) = some τ' ∧
      τ'.calls = .writeHandler { firstIo with newJournal := true } (.submit (mapExtentOffset b 0))
        (some s₀.writerCurrent) ::ₘ τ.calls.erase (.writeAlloc firstIo none) ∧
      τ'.sup.bug = none := by
  obtain ⟨b, hb⟩ := Super.exists_allocExtent (s := τ.sup) (f := writableFile name)
    (by rw [h.reservedExtents, h.freeExtents]; exact hroom) (by rw [h.free]; exact hfree) 0 rfl
  have hsuper := Super.superToFile_eq (s := τ.sup) (f := writableFile name) (b := b)
    (i := fileIndex (extentFrom 0)) rfl
  have e := step_call_eq (c := .writeAlloc firstIo none) h.bug hc true
  have hf : τ.sup.filesById[firstIo.file]? = _ := h.file
  have ha : τ.sup.allocExtent (writableFile name) firstIo.off = _ := hb
  simp only [callStep, hf, Option.map_some] at e
  rw [writeAlloc_fresh h.status rfl ha] at e
  refine ⟨_, b, e, ?_, ?_⟩
  · have hcur : (τ.sup.superToFile (writableFile name) b
        (fileIndex (extentFrom 0))).writerCurrent = s₀.writerCurrent := by
      rw [hsuper]
      exact h.current
    rw [← hcur]
    rfl
  · change (τ.sup.superToFile (writableFile name) b (fileIndex (extentFrom 0))).bug = none
    rw [hsuper]
    exact h.bug

/-- Such a file system has room for data. -/
theorem room_of_mounted {discard compact : Bool}
    (h : Mounted (Sys.opened total discard compact u disk) uuid σ)
    (hroom : reservedFor total + 1 < total) :
    σ.sup.reservedExtents < σ.sup.freeExtents ∧ σ.sup.free ≠ ∅ := by
  rw [h.sup]
  constructor
  · change reservedFor total < total - 1
    omega
  · have : 1 ∈ (Finset.range total).erase 0 := by simp; omega
    exact Finset.ne_empty_of_mem this

/-- **A first write** on a fresh file system with room for data. -/
theorem exists_writing {discard compact : Bool} {name : FileName} (hn : name.Normal)
    (h : Mounted (Sys.opened total discard compact u disk) uuid σ) (hc : σ.calls = 0)
    (hroom : reservedFor total + 1 < total) :
    ∃ τ τ' b f, σ.run (writeLabels name) = some τ ∧
      τ.sup.filesById[1]? = some f ∧ f.openType = .readwrite ∧
      τ.step (.call (.writeAlloc ⟨1, 0, 4096, false⟩ none) true) = some τ' ∧
      τ.calls.count (.writeHandler ⟨1, 0, 4096, true⟩ (.submit (mapExtentOffset b 0)) (some false)) <
        τ'.calls.count
          (.writeHandler ⟨1, 0, 4096, true⟩ (.submit (mapExtentOffset b 0)) (some false)) := by
  have hs := h.sup
  obtain ⟨τ, hrun, hfile, hcalls⟩ := exists_opened_file hn h hc
  obtain ⟨e₁, e₂⟩ := step_first_write hfile
  obtain ⟨hroom', hne⟩ := room_of_mounted h hroom
  have hcur : σ.sup.writerCurrent = false := by rw [hs]; rfl
  obtain ⟨τ', b, e₃, hcalls', -⟩ := step_first_alloc
    (τ := (τ.addCall (.write firstIo)).setCall (.write firstIo) (.writeAlloc firstIo none))
    hfile hroom' hne (Multiset.mem_cons_self _ _)
  refine ⟨(τ.addCall (.write firstIo)).setCall (.write firstIo) (.writeAlloc firstIo none), τ', b,
    writableFile name, ?_, hfile.file, rfl, e₃, ?_⟩
  · have : writeLabels name = [.create name, .truncate 1 4096, .open 1 true] ++
        [.write 1 0 4096, .call (.write firstIo) true] := rfl
    rw [this, run_append, hrun, Option.bind_some, run, e₁, Option.bind_some, run, e₂,
      Option.bind_some, run]
  · rw [hcur] at hcalls'
    rw [hcalls', Multiset.count_cons_self, Multiset.count_erase_of_ne (by simp)]
    exact Nat.lt_succ_self _

theorem exists_first_write (hf : FreshMkfs uuid disk) (hroom : reservedFor total + 1 < total)
    (discard compact : Bool) (u : Uuid) {name : FileName} (hn : name.Normal) :
    ∃ τ τ' b f, (Sys.opened total discard compact u disk).run (mountLabels ++ writeLabels name) =
        some τ ∧
      τ.sup.filesById[1]? = some f ∧ f.openType = .readwrite ∧
      τ.step (.call (.writeAlloc ⟨1, 0, 4096, false⟩ none) true) = some τ' ∧
      τ.calls.count (.writeHandler ⟨1, 0, 4096, true⟩ (.submit (mapExtentOffset b 0)) (some false)) <
        τ'.calls.count
          (.writeHandler ⟨1, 0, 4096, true⟩ (.submit (mapExtentOffset b 0)) (some false)) := by
  obtain ⟨σ, hrun, hm, -, -, hc⟩ := exists_mounted_run hf (show 1 ≤ total by omega) discard compact u
  obtain ⟨τ, τ', b, f, hτ, h⟩ := exists_writing hn hm hc hroom
  exact ⟨τ, τ', b, f, by rw [run_append, hrun]; exact hτ, h⟩

end Sys

/-- A file name of one letter. -/
def FileName.letter : FileName := .ofCstr [97] (by decide)

theorem FileName.normal_letter : FileName.letter.Normal := rfl

/-- Another file name. -/
def FileName.other : FileName := .ofCstr [98] (by decide)

/-- The same task, of those that carry no data. -/
def Task.same : Task → Task → Bool
  | .before fl flush, .before fl' flush' => fl = fl' ∧ flush = flush'
  | .copy f i b src, .copy f' i' b' src' => f = f' ∧ i = i' ∧ b = b' ∧ src = src'
  | .requeue f, .requeue f' => f = f'
  | _, _ => false

theorem Task.eq_of_same {t u : Task} (h : t.same u = true) : t = u := by
  unfold same at h
  split at h
  · obtain ⟨rfl, rfl⟩ := of_decide_eq_true h
    rfl
  · obtain ⟨rfl, rfl, rfl, rfl⟩ := of_decide_eq_true h
    rfl
  · obtain rfl := of_decide_eq_true h
    rfl
  · cases h

theorem Task.eq_of_isEqv {ts us : List Task} (h : ts.isEqv us Task.same = true) : ts = us := by
  induction ts generalizing us with
  | nil =>
      cases us with
      | nil => rfl
      | cons => cases h
  | cons t ts ih =>
      cases us with
      | nil => cases h
      | cons u us =>
          obtain ⟨ht, hts⟩ := Bool.and_eq_true_iff.1 h
          rw [eq_of_same ht, ih hts]

theorem Sys.active_of_same {σ : Sys} {t : Task} (h : σ.active.any (·.same t) = true) :
    σ.active = some t := by
  obtain ⟨u, ha, hu⟩ := (Option.any_eq_true _ _).1 h
  rw [ha, Task.eq_of_same hu]

/-- The WRITE of the flusher `fl`. -/
def Task.writeOf (fl : ℕ) : Task → Option WriteReq
  | .writer fl' io => if fl' = fl then io else none
  | _ => none

theorem Task.eq_writer {t : Task} {fl : ℕ} {req : WriteReq} (h : t.writeOf fl = some req) :
    t = .writer fl (some req) := by
  cases t with
  | writer fl' io =>
      change (if fl' = fl then io else none) = some req at h
      split_ifs at h with hfl
      rw [hfl, h]
  | _ => cases h

/-! ### A small file system -/

/-- The uuid of `smallDisk`. -/
def smallUuid : Uuid := ⟨List.replicate 16 7, rfl⟩

/-- A disk of zeros that was just formatted. -/
def smallDisk : Buf := Buf.overlay (fun _ => 0) (superMake smallUuid)

namespace Sys

/-- A file system of 16 extents that was just mounted.  Runs that start here are evaluated. -/
def small : Sys := mounted 16 true true smallUuid smallDisk

theorem run_small {ls : List Label} {σ : Sys} (h : small.run ls = some σ) :
    (Sys.opened 16 true true smallUuid smallDisk).run (mountLabels ++ ls) = some σ := by
  have hm : (Sys.opened 16 true true smallUuid smallDisk).run mountLabels = some small :=
    run_mountLabels (freshMkfs_zero smallUuid) (by decide) true true smallUuid
  rw [run_append, hm]
  exact h

theorem Reachable.small {σ : Sys} {ls : List Label} (h : small.run ls = some σ) :
    (Sys.opened 16 true true smallUuid smallDisk).Reachable σ := ⟨_, run_small h⟩

/-- What the evaluation of a run says about the state that it leads to. -/
theorem exists_small (ls : List Label) {P : Sys → Prop} [DecidablePred P]
    (h : (small.run ls).any (fun σ => decide (P σ)) = true) : ∃ σ, small.run ls = some σ ∧ P σ := by
  cases hrun : small.run ls with
  | none => simp [hrun] at h
  | some σ => exact ⟨σ, rfl, of_decide_eq_true (by simpa [hrun] using h)⟩

/-- What follows a run. -/
theorem run_rest {σ τ τ' : Sys} {ls ls' : List Label} (h : σ.run ls = some τ)
    (h' : σ.run (ls ++ ls') = some τ') : τ.run ls' = some τ' := by
  rw [run_append, h] at h'
  exact h'

/-- A run that goes on by one step. -/
theorem run_concat {σ τ τ' : Sys} {ls : List Label} {l : Label} (h : σ.run ls = some τ)
    (h' : σ.run (ls ++ [l]) = some τ') : τ.step l = some τ' := by
  obtain ⟨τ₁, hs, hr⟩ := Option.bind_eq_some_iff.1 (run_rest h h')
  obtain rfl := Option.some.inj hr
  exact hs

/-- The executor completes the next `n` tasks. -/
def work (n : ℕ) : List Label := (List.replicate n [.get, .done false true fun _ => 0]).flatten

/-- `cyanfs_super_flush` to the disk queues its flusher. -/
def syncLabels : List Label :=
  [.superFlush true, .call (.flusher 0 true none) true, .call (.flusherQueue true none) true]

/-- `n` threads call `cyanfs_super_flush_new_journal` behind what they did, which finds too few
entries. -/
def settle (n : ℕ) : List Label :=
  List.replicate n (.call (.flusher superMaxInflightJournal false none) true)

/-- A file is made and written; it is closed and forked. -/
def forkLabels : List Label := writeLabels .letter ++
  [.call (.writeAlloc firstIo none) true,
    .call (.writeHandler { firstIo with newJournal := true } (.submit (mapExtentOffset 11 0))
      (some false)) true, .close 1, .fork 1 .other]

/-- The loop variables of a write to the fork. -/
abbrev forkIo : IoCall := ⟨2, 0, 4096, false⟩

/-- The fork is written where only its parent has an extent, which queues a COPY. -/
def copyLabels : List Label :=
  [.open 2 true, .write 2 0 4096, .call (.write forkIo) true,
    .call (.writeAlloc forkIo (some 11)) true]

/-- The loop variables of a write of six extents, at piece `k`. -/
def bulkIo (k : ℕ) : IoCall := ⟨1, k * extentSize, (6 - k) * extentSize, k ≠ 0⟩

/-- The sections of the write at piece `k`, which is given backend extent `b`. -/
def pieceLabels (k b : ℕ) : List Label :=
  [.call (.write (bulkIo k)) true, .call (.writeAlloc (bulkIo k) none) true,
    .call (.writeHandler { bulkIo k with newJournal := true }
      (.submit (mapExtentOffset b (k * extentSize))) (some false)) true]

/-- A file of six extents is made, written and closed. -/
def bulkLabels : List Label :=
  [.create .letter, .truncate 1 (6 * extentSize), .open 1 true, .write 1 0 (6 * extentSize)] ++
    pieceLabels 0 11 ++ pieceLabels 1 12 ++ pieceLabels 2 13 ++ pieceLabels 3 14 ++
    pieceLabels 4 15 ++ pieceLabels 5 1 ++ [.close 1]

/-- Five of the extents are released one behind the other, four of them with a flush, and the
executor is in the middle of them. -/
def retireLabels : List Label :=
  bulkLabels ++ [.truncate 1 (5 * extentSize)] ++ syncLabels ++ work 6 ++
    [.truncate 1 (4 * extentSize)] ++ syncLabels ++ [.truncate 1 (3 * extentSize)] ++ syncLabels ++
    [.truncate 1 (2 * extentSize)] ++ syncLabels ++ [.truncate 1 extentSize] ++ work 11

end Sys

end Cyanfs
