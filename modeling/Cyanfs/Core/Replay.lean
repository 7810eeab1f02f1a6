/-
# What a refused journal entry leaves behind

`Super.replayWith` returns either an error or a new state, so it cannot say what
the C code leaves behind when it fails.  Here `__cyanfs_super_journal_replay` and
the helpers it calls are written as the C code runs them: on one super that they
change as they go, with a status at the end.  `__cyanfs_init_file` is the one
that changes something before its last check: a file whose name is taken has
already been put into `files_by_id` and is taken out again.

`journalReplay_known` says that this is the same function as `replayWith`;
`rejected_unchanged` that a status other than `0` comes with the old state.
-/

import Cyanfs.Core.Journal

namespace Cyanfs

open Lib Std

/-- A journal entry as the replay gets it: of one of the eight types, or of a
type that the `switch` does not know. -/
inductive AnyEntry where
  | known (e : Entry)
  | unknown (type : ℕ)

namespace Super

variable (s : Super)

/-- `CYANFS_RB_INSERT` into `files_by_id`: whether the id is taken, and the
super after it. -/
def insertById (f : File) : Bool × Super :=
  if s.filesById.contains f.id then (true, s) else (false, s.setFile f)

/-- `CYANFS_RB_INSERT` into `files_by_name`. -/
def insertByName (f : File) : Bool × Super :=
  if (s.filesByName f.name).isSome then (true, s)
  else (false, { s with filesByName := Function.update s.filesByName f.name (some f.id) })

/-- `CYANFS_RB_REMOVE` from `files_by_id`. -/
def removeById (f : File) : Super := { s with filesById := s.filesById.erase f.id }

/-- The last lines of `__cyanfs_init_file`: the parent's count of children, the
largest id and the number of files. -/
def countFile (f : File) (parent : Option File) : Super :=
  let s := match parent with
    | some p => s.setFile { p with children := p.children + 1 }
    | none => s
  let s := if s.maxFileId < f.id then { s with maxFileId := f.id } else s
  { s with files := s.files + 1 }

/-- `__cyanfs_init_file`, step by step. -/
def initFileInPlace (name : FileName) (id : ℕ) (parent : Option File) : Option Err × Super :=
  let f := newFile name id parent
  match s.insertById f with
  | (true, s) => (some .inval, s)
  | (false, s) =>
      match s.insertByName f with
      | (true, s) => (some .inval, s.removeById f)
      | (false, s) => (none, s.countFile f parent)

/-- `__cyanfs_file_map_extent`, step by step. -/
def mapExtentInPlace (f : File) (b fId : ℕ) : Option Err × Super :=
  if (f.findExtent (extentBegin fId)).isSome then (some .inval, s)
  else (none, s.superToFile f b (fileIndex fId))

/-- `__cyanfs_file_bind_extent`, step by step. -/
def bindExtentInPlace (f : File) (fId bId : ℕ) : Option Err × Super :=
  if extentIndexMax < fId ∨ f.size ≤ extentBegin fId then (some .inval, s)
  else
    match s.findExtent bId with
    | none => (some .inval, s)
    | some b => s.mapExtentInPlace f b fId

/-- `__cyanfs_file_unbind_extent`, step by step. -/
def unbindExtentInPlace (f : File) (fId : ℕ) : Option Err × Super :=
  if extentIndexMax < fId ∨ f.size ≤ extentBegin fId then (some .inval, s)
  else
    match f.findExtent (extentBegin fId) with
    | none => (some .inval, s)
    | some _ => (none, s.unmapExtent f.id (fileIndex (extentFrom (extentBegin fId))))

/-- `__cyanfs_super_journal_replay`, step by step: the status and the super it
leaves. -/
def journalReplay (malloc : Bool) : AnyEntry → Option Err × Super
  | .known (.create id name) =>
      match name.normalize with
      | none => (some .inval, s)
      | some name =>
          if id = 0 ∨ s.filesById.contains id ∨ (s.lookupByName name).isSome then (some .inval, s)
          else if superMaxFiles ≤ s.files then (some .nospace, s)
          else if malloc then s.initFileInPlace name id none else (some .nomem, s)
  | .known (.truncate id size) =>
      if ¬ sizeValid size then (some .inval, s)
      else
        match s.filesById[id]? with
        | none => (some .inval, s)
        | some f => if f.children ≠ 0 then (some .inval, s) else (none, s.truncateFile f size)
  | .known (.fork id pid name) =>
      match name.normalize with
      | none => (some .inval, s)
      | some name =>
          if id = 0 ∨ id ≤ pid ∨ s.filesById.contains id ∨ (s.lookupByName name).isSome then
            (some .inval, s)
          else if superMaxFiles ≤ s.files then (some .nospace, s)
          else
            match s.filesById[pid]? with
            | none => (some .inval, s)
            | some p => if malloc then s.initFileInPlace name id (some p) else (some .nomem, s)
  | .known (.delete id) =>
      match s.filesById[id]? with
      | none => (some .inval, s)
      | some f => if f.children ≠ 0 then (some .inval, s) else (none, s.deleteFile f)
  | .known (.bind id file backend) =>
      match s.filesById[id]? with
      | none => (some .inval, s)
      | some f => s.bindExtentInPlace f file backend
  | .known (.unbind id file) =>
      match s.filesById[id]? with
      | none => (some .inval, s)
      | some f => s.unbindExtentInPlace f file
  | .known (.rename id name) =>
      match name.normalize with
      | none => (some .inval, s)
      | some name =>
          match s.filesById[id]? with
          | none => (some .inval, s)
          | some f =>
              match s.lookupByName name with
              | some p => if p.id ≠ f.id then (some .inval, s) else (none, s.renameFile f name)
              | none => (none, s.renameFile f name)
  | .known (.next b) =>
      match s.findExtent b with
      | none => (some .inval, s)
      | some b => (none, s.takeJournal b)
  | .unknown _ => (some .inval, s)

/-- A status with the super it leaves, when a failure leaves the old one. -/
def outcome (r : Except Err Super) : Option Err × Super :=
  match r with
  | .ok s' => (none, s')
  | .error err => (some err, s)

@[simp] theorem outcome_ok (s' : Super) : s.outcome (.ok s') = (none, s') := rfl

@[simp] theorem outcome_error (err : Err) : s.outcome (.error err) = (some err, s) := rfl

/-- A file that was put in and taken out again leaves no trace. -/
theorem removeById_setFile {f : File} (h : ¬ s.filesById.contains f.id) :
    (s.setFile f).removeById f = s := by
  have herase : (s.filesById.insert f.id f).erase f.id = s.filesById := by
    refine ExtTreeMap.ext_getElem? fun k => ?_
    rw [ExtTreeMap.getElem?_erase, ExtTreeMap.getElem?_insert]
    by_cases hk : f.id = k
    · subst hk
      simpa using h
    · simp [hk]
  rw [removeById, setFile]
  simp only [herase]

theorem initFileInPlace_eq (name : FileName) (id : ℕ) (parent : Option File) :
    s.initFileInPlace name id parent = s.outcome (s.initFile name id parent) := by
  unfold initFileInPlace initFile insertById
  by_cases hid : s.filesById.contains id
  · simp only [newFile, hid, if_true, outcome_error]
  · have hid' : ¬ s.filesById.contains (newFile name id parent).id := hid
    by_cases hname : (s.filesByName name).isSome
    · have hremove := s.removeById_setFile hid'
      simp only [hid, insertByName, newFile, setFile, hname, if_true, outcome_error,
        Bool.false_eq_true, if_false] at hremove ⊢
      rw [hremove]
    · by_cases hmax : s.maxFileId < id <;> cases parent <;>
        simp only [hid, insertByName, countFile, newFile, setFile, hname, hmax, outcome_ok,
          Bool.false_eq_true, if_true, if_false]

theorem mapExtentInPlace_eq (f : File) (b fId : ℕ) :
    s.mapExtentInPlace f b fId = s.outcome (s.mapExtent f b fId) := by
  unfold mapExtentInPlace mapExtent
  split_ifs <;> rfl

theorem bindExtentInPlace_eq (f : File) (fId bId : ℕ) :
    s.bindExtentInPlace f fId bId = s.outcome (s.bindExtent f fId bId) := by
  unfold bindExtentInPlace bindExtent
  split_ifs
  · rfl
  · cases s.findExtent bId with
    | none => rfl
    | some b => exact s.mapExtentInPlace_eq f b fId

theorem unbindExtentInPlace_eq (f : File) (fId : ℕ) :
    s.unbindExtentInPlace f fId = s.outcome (s.unbindExtent f fId) := by
  unfold unbindExtentInPlace unbindExtent
  split_ifs with h₁ h₂
  · rfl
  · rw [Option.isNone_iff_eq_none.1 h₂]
    rfl
  · obtain ⟨e, he⟩ := Option.ne_none_iff_exists'.1 (by simpa using h₂)
    rw [he]
    rfl

/-- **The two forms of the replay are one function.** -/
theorem journalReplay_known (malloc : Bool) (e : Entry) :
    s.journalReplay malloc (.known e) = s.outcome (s.replayWith malloc e) := by
  cases e with
  | next b =>
      simp only [journalReplay, replayWith]
      cases s.findExtent b <;> rfl
  | create id name =>
      simp only [journalReplay, replayWith]
      cases name.normalize with
      | none => rfl
      | some name =>
          dsimp only
          split_ifs
          · rfl
          · rfl
          · exact s.initFileInPlace_eq name id none
          · rfl
  | truncate id size =>
      simp only [journalReplay, replayWith]
      by_cases hv : sizeValid size
      · rw [if_neg (not_not.2 hv), if_neg (not_not.2 hv)]
        cases s.filesById[id]? with
        | none => rfl
        | some f =>
            dsimp only
            split_ifs <;> rfl
      · rw [if_pos hv, if_pos hv]
        rfl
  | fork id pid name =>
      simp only [journalReplay, replayWith]
      cases name.normalize with
      | none => rfl
      | some name =>
          cases s.filesById[pid]? with
          | none =>
              dsimp only
              split_ifs <;> rfl
          | some p =>
              dsimp only
              split_ifs
              · rfl
              · rfl
              · exact s.initFileInPlace_eq name id (some p)
              · rfl
  | delete id =>
      simp only [journalReplay, replayWith]
      cases s.filesById[id]? with
      | none => rfl
      | some f =>
          dsimp only
          split_ifs <;> rfl
  | bind id file backend =>
      simp only [journalReplay, replayWith]
      cases s.filesById[id]? with
      | none => rfl
      | some f => exact s.bindExtentInPlace_eq f file backend
  | unbind id file =>
      simp only [journalReplay, replayWith]
      cases s.filesById[id]? with
      | none => rfl
      | some f => exact s.unbindExtentInPlace_eq f file
  | rename id name =>
      simp only [journalReplay, replayWith]
      cases name.normalize with
      | none => rfl
      | some name =>
          cases s.filesById[id]? with
          | none => rfl
          | some f =>
              dsimp only
              cases s.lookupByName name with
              | none => rfl
              | some p =>
                  dsimp only
                  split_ifs <;> rfl

variable {s}

/-- **A refused entry changes nothing**: whatever the super and the entry, a
status other than `0` comes with the super as it was before the call. -/
theorem rejected_unchanged {malloc : Bool} {e : AnyEntry} {err : Err} {s' : Super}
    (h : s.journalReplay malloc e = (some err, s')) : s' = s := by
  cases e with
  | unknown type => exact (Prod.mk.inj h).2.symm
  | known e =>
      rw [journalReplay_known] at h
      cases hr : s.replayWith malloc e with
      | ok s'' =>
          rw [hr, outcome_ok] at h
          cases (Prod.mk.inj h).1
      | error err' =>
          rw [hr, outcome_error] at h
          exact (Prod.mk.inj h).2.symm

/-- On a super with a file, a CREATE and a FORK whose name is taken, both of which store the new
file by its id before they find the name. -/
theorem rejected_unchanged_taken :
    let name : FileName := .ofCstr [97] (by decide)
    let s : Super :=
      { (opened 16 false false ⟨List.replicate 16 7, rfl⟩ fun _ => 0).setFile (newFile name 1 none) with
        filesByName := Function.update (fun _ => none) name (some 1)
        maxFileId := 1
        files := 1 }
    s.journalReplay true (.known (.create 2 name)) = (some .inval, s) ∧
      s.journalReplay true (.known (.fork 3 1 name)) = (some .inval, s) := by
  intro name s
  have hcreate : (s.journalReplay true (.known (.create 2 name))).1 = some .inval := by decide
  have hfork : (s.journalReplay true (.known (.fork 3 1 name))).1 = some .inval := by decide
  exact ⟨Prod.ext hcreate (rejected_unchanged (Prod.ext hcreate rfl)),
    Prod.ext hfork (rejected_unchanged (Prod.ext hfork rfl))⟩

end Super

end Cyanfs
