/-
# Splitting a range at the extents

`cyanfs_read`, `cyanfs_write` and `cyanfs_discard` call their handler once for each extent
that the range `[f_off, f_off + len)` meets.  `Follows` follows one thread through such a
call, between the steps of everything else, and lists the handler calls it makes.

One section of the thread leaves the range alone, goes on behind the piece of a handler that
has returned 0, or ends the call with a status (`outcome_step`).  By induction over the
thread the pieces tile the range from its beginning (`Tiles`), each of them inside one extent
of the file, and a thread that returns 0 has tiled all of it.  A piece that is submitted lies
in the extent that the lookup has found.
-/

import Cyanfs.Core.Words
import Cyanfs.Data.CopyOnWrite

namespace Cyanfs

open Lib Std

namespace Call

/-- The label that enters a call. -/
def label : Call → Option Label
  | read io => some (.read io.file io.off io.len)
  | write io => some (.write io.file io.off io.len)
  | discard io => some (.discard io.file io.off io.len)
  | _ => none

/-- The piece that the handler is called for. -/
def piece? : Call → Option (IoCall × HandlerArg)
  | readHandler io arg | writeHandler io arg _ => if arg = .ioError then none else some (io, arg)
  | discardHandler io arg => some (io, arg)
  | _ => none

/-- The piece whose extent carries the error mark; the handler is not called for it. -/
def failed? : Call → Option IoCall
  | readHandler io arg | writeHandler io arg _ => if arg = .ioError then some io else none
  | _ => none

/-- The section begins with an allocation. -/
def allocates : Call → Bool
  | writeAlloc _ _ | discard _ => true
  | _ => false

/-- How many sections of the current round are left. -/
def sections : Call → ℕ
  | read _ | write _ | discard _ => 2
  | writeAlloc _ _ | discardLocked _ => 1
  | _ => 0

end Call

/-- A call of the handler: the state in which the section before it has ended, whether the
call is a `cyanfs_read`, and the piece. -/
structure HandlerCall where
  state : Sys
  isRead : Bool
  io : IoCall
  arg : HandlerArg

/-- The extent that a walk up from a file sees at offset `off`: its own, or that of the
nearest ancestor, as long as the offset lies inside the files on the way. -/
inductive Super.Nearest (s : Super) (off : ℕ) : ℕ → Extent → Prop
  | own {id : ℕ} {f : File} {e : Extent} (hf : s.filesById[id]? = some f)
      (hsize : off / extentSize * extentSize < f.size) (he : f.extents[off / extentSize]? = some e) :
      Nearest s off id e
  | inherited {id p : ℕ} {f : File} {e : Extent} (hf : s.filesById[id]? = some f)
      (hsize : off / extentSize * extentSize < f.size) (he : f.extents[off / extentSize]? = none)
      (hp : f.parent = some p) (hn : Nearest s off p e) : Nearest s off id e

namespace HandlerCall

/-- The extent of the file that the piece is in is bound to `e`. -/
def BoundTo (p : HandlerCall) (e : Extent) : Prop :=
  if p.isRead then p.state.sup.Nearest p.io.off p.io.file e
  else ∃ f, p.state.sup.filesById[p.io.file]? = some f ∧ f.extents[p.io.off / extentSize]? = some e

/-- The piece lies in one extent of the file; and if it is submitted, then to the same offset
inside the backend extent that is bound there, which lies behind the super block and inside
the device. -/
structure Ok (p : HandlerCall) (size : ℕ) : Prop where
  pos : 0 < p.io.space
  inside : (p.io.off + p.io.space - 1) / extentSize = p.io.off / extentSize
  submit : ∀ bOff, p.arg = .submit bOff → ∃ e, p.BoundTo e ∧ e.pending = false ∧
    superBlockSize + e.backend * extentSize ≤ bOff ∧
    bOff + p.io.space ≤ superBlockSize + (e.backend + 1) * extentSize ∧
    bOff - (superBlockSize + e.backend * extentSize) = p.io.off % extentSize ∧
    bOff + p.io.space ≤ size

end HandlerCall

/-- Handler calls that cover `[a, b)` one behind the other. -/
def Tiles : ℕ → List HandlerCall → ℕ → Prop
  | a, [], b => a = b
  | a, p :: ps, b => p.io.off = a ∧ Tiles (a + p.io.space) ps b

theorem Tiles.concat {a b : ℕ} {ps : List HandlerCall} (p : HandlerCall) (h : Tiles a ps b)
    (hp : p.io.off = b) : Tiles a (ps ++ [p]) (b + p.io.space) := by
  induction ps generalizing a with
  | nil => exact ⟨hp.trans h.symm, by rw [show a = b from h]; rfl⟩
  | cons q ps ih => exact ⟨h.1, ih h.2⟩

/-! ### One piece -/

/-- The sizes of a device that `cyanfs_super_open` accepts. -/
theorem total_of_extentsOfSize {size total : ℕ} (h : extentsOfSize size = some total) :
    total ≤ extentCountMax ∧ superBlockSize + total * extentSize ≤ size := by
  unfold extentsOfSize at h
  split_ifs at h with hbad
  obtain rfl := Option.some.inj h
  push Not at hbad
  simp only [extentFrom, extentCountMax, extentSize, superBlockSize, fileMaxSize] at *
  omega

theorem IoCall.space_eq {io : IoCall} (h : io.off < fileMaxSize) :
    io.space = min (io.off / extentSize * extentSize + extentSize - io.off) io.len := by
  rw [IoCall.space, mapExtentSpace, extentFrom_of_lt h, extentBegin]

theorem IoCall.space_pos {io : IoCall} (h : io.off < fileMaxSize) (hlen : 0 < io.len) :
    0 < io.space := by
  rw [IoCall.space_eq h]
  simp only [extentSize]
  omega

/-- A piece does not cross the end of its extent. -/
theorem IoCall.space_inside {io : IoCall} (h : io.off < fileMaxSize) (hlen : 0 < io.len) :
    (io.off + io.space - 1) / extentSize = io.off / extentSize := by
  rw [IoCall.space_eq h]
  simp only [extentSize]
  omega

/-- A mapped piece lies in its backend extent. -/
theorem mapExtentOffset_inside {io : IoCall} (b : ℕ) (h : io.off < fileMaxSize) :
    superBlockSize + b * extentSize ≤ mapExtentOffset b io.off ∧
    mapExtentOffset b io.off + io.space ≤ superBlockSize + (b + 1) * extentSize ∧
    mapExtentOffset b io.off - (superBlockSize + b * extentSize) = io.off % extentSize := by
  rw [IoCall.space_eq h, mapExtentOffset, extentBegin]
  simp only [extentSize]
  omega

theorem File.findExtent_eq {f : File} {off : ℕ} (h : off < fileMaxSize) :
    f.findExtent off = f.extents[off / extentSize]? := by
  rw [File.findExtent, fileIndex_of_lt (extentFrom_lt_of_lt h), extentFrom_of_lt h]

/-- The walk of `__cyanfs_file_find_extent_follow` finds the nearest extent. -/
theorem Super.nearest_of_followFrom {s : Super} {off k id : ℕ} {x : Extent} (h : off < fileMaxSize)
    (hf : s.followFrom off k (some id) = some x) : s.Nearest off id x := by
  induction k generalizing id with
  | zero => cases hf
  | succ k ih =>
      rw [followFrom] at hf
      split at hf
      · cases hf
      rename_i f hfile
      split_ifs at hf with hsize
      rw [extentFrom_of_lt h, extentBegin] at hsize
      rw [File.findExtent_eq h] at hf
      split at hf
      · rename_i e he
        obtain rfl := Option.some.inj hf
        exact .own hfile hsize he
      · rename_i hnone
        cases hp : f.parent with
        | none =>
            rw [hp] at hf
            cases k <;> cases hf
        | some p =>
            rw [hp] at hf
            exact .inherited hfile hsize hnone hp (ih hf)

theorem HandlerArg.of_eq_submit {x : Extent} {off bOff : ℕ} (h : HandlerArg.of x off = .submit bOff) :
    x.pending = false ∧ bOff = mapExtentOffset x.backend off := by
  unfold HandlerArg.of at h
  split_ifs at h with h₁ h₂
  exact ⟨by simpa using h₂, (HandlerArg.submit.inj h).symm⟩

theorem HandlerArg.of_eq_ioError {x : Extent} {off : ℕ} :
    HandlerArg.of x off = .ioError ↔ x.error = true := by
  unfold HandlerArg.of
  split_ifs with h₁ h₂ <;> simp [h₁]

theorem Super.Nearest.of_files {s s' : Super} {off id : ℕ} {x : Extent} (h : s.Nearest off id x)
    (hs : s'.filesById = s.filesById) : s'.Nearest off id x := by
  induction h with
  | own hf hsize he => exact .own (hs ▸ hf) hsize he
  | inherited hf hsize he hp hn ih => exact .inherited (hs ▸ hf) hsize he hp ih

theorem Super.Nearest.extentAt {s : Super} {off id : ℕ} {x : Extent} (h : s.Nearest off id x) :
    ∃ k, s.extentAt k (off / extentSize) = some x := by
  induction h with
  | @own id f e hf hsize he => exact ⟨id, by rw [Super.extentAt_of_file hf, he]⟩
  | inherited hf hsize he hp hn ih => exact ih

/-- A piece that is submitted to an extent that is bound. -/
theorem HandlerCall.ok_of_bound {p : HandlerCall} {size total : ℕ}
    (hsize : extentsOfSize size = some total)
    (hoff : p.io.off < fileMaxSize) (hlen : 0 < p.io.len)
    (h : ∀ bOff, p.arg = .submit bOff → ∃ x, p.BoundTo x ∧ x.backend < total ∧
      p.arg = .of x p.io.off) : p.Ok size := by
  refine ⟨p.io.space_pos hoff hlen, p.io.space_inside hoff hlen, fun bOff harg => ?_⟩
  obtain ⟨x, hx, hb, hof⟩ := h bOff harg
  obtain ⟨hpend, rfl⟩ := HandlerArg.of_eq_submit (hof.symm.trans harg)
  obtain ⟨h₁, h₂, h₃⟩ := mapExtentOffset_inside x.backend hoff
  refine ⟨x, hx, hpend, h₁, h₂, h₃, h₂.trans ?_⟩
  calc superBlockSize + (x.backend + 1) * extentSize
      ≤ superBlockSize + total * extentSize :=
        Nat.add_le_add_left (Nat.mul_le_mul_right extentSize (Nat.succ_le_of_lt hb)) _
    _ ≤ size := (total_of_extentsOfSize hsize).2

namespace Sys

variable {σ τ τ' : Sys} {c d e : Call} {total size n : ℕ} {ps : List HandlerCall}

/-- The handler call that begins when a thread has come to `e`. -/
def handled (τ : Sys) (e : Call) : List HandlerCall :=
  (e.piece?.map fun x => ⟨τ, e.isRead, x.1, x.2⟩).toList

/-- A thread that is at `c` in `σ` is at `d` in `τ`.  It has taken `n` sections of its call,
and has called its handler for `ps`. -/
inductive Follows (σ : Sys) (c : Call) : Sys → Call → ℕ → List HandlerCall → Prop
  | enter (hc : c ∈ σ.calls) : Follows σ c σ c 0 []
  | other {τ τ' : Sys} {d : Call} {n : ℕ} {ps : List HandlerCall} {l : Label}
      (h : Follows σ c τ d n ps) (hs : τ.step l = some τ')
      (hl : ∀ ok, l = .call d ok → 2 ≤ τ.calls.count d) : Follows σ c τ' d n ps
  | own {τ τ' : Sys} {d e : Call} {n : ℕ} {ps : List HandlerCall} {ok : Bool}
      (h : Follows σ c τ d n ps) (hs : τ.step (.call d ok) = some τ')
      (he : τ'.calls = e ::ₘ τ.calls.erase d) (hio : e.io? ≠ none) :
      Follows σ c τ' e (n + 1) (ps ++ handled τ' e)

/-- The thread takes its last section, and returns `st`. -/
def Returns (τ : Sys) (d : Call) (ok : Bool) (st : Status) (τ' : Sys) : Prop :=
  τ.step (.call d ok) = some τ' ∧ τ'.log.returned = τ.log.returned ++ [(d, st)]

/-- The extent that is visible at the beginning of the piece carries the error mark. -/
def Marked (τ : Sys) (io : IoCall) : Prop :=
  ∃ x, τ.sup.Nearest io.off io.file x ∧ x.error = true

/-- Why a section ends its call with an error: the super cannot be used, memory or space has
run out, or the extent that is visible there carries the error mark.  A piece that the section
before has found marked is the last one. -/
inductive Fails (τ : Sys) (ok : Bool) : Call → Err → Prop
  | status {d : Call} {err : Err} (hd : d.sections ≠ 0) (h : τ.sup.ensureStatus = some err) :
      Fails τ ok d err
  | memory {d : Call} (hd : d.allocates = true) (hok : ok = false) : Fails τ ok d .nomem
  | space {io : IoCall} {parent : Option ℕ} (h : τ.sup.freeExtents ≤ τ.sup.reservedExtents) :
      Fails τ ok (.writeAlloc io parent) .nospace
  | marked {d : Call} {io : IoCall} (hd : d.sections ≠ 0) (hio : d.io? = some io)
      (h : τ.Marked io) : Fails τ ok d .io
  | found {d : Call} {io : IoCall} (hd : d.failed? = some io) : Fails τ ok d .io

/-! ### One section -/

/-- The range is the same. -/
def SameRange (io io' : IoCall) : Prop := io'.file = io.file ∧ io'.off = io.off ∧ io'.len = io.len

/-- What a section of a thread that goes on does to its range: it looks something up, or goes
on behind the piece of a handler that has returned 0. -/
inductive Section (τ' : Sys) (d e : Call) (ok : Bool) : Prop
  | lookup {io io' : IoCall} (hd : d.io? = some io) (he : e.io? = some io') (hsame : SameRange io io')
      (hread : e.isRead = d.isRead) (hsec : e.sections < d.sections)
      (hfind : ∀ io'' arg, e = .readHandler io'' arg → arg =
        (τ'.sup.findExtentFollow (some io''.file) io''.off).elim .nop fun x => .of x io''.off)
      (hnop : ∀ io'' bOff, e ≠ .discardHandler io'' (.submit bOff) ∧
        e ≠ .writeHandler io'' (.submit bOff) none)
      (hmark : ∀ io'', e.failed? = some io'' → τ'.Marked io'')
  | next {io : IoCall} (hd : d.io? = some io) (hp : d.piece? ≠ none) (hok : ok = true)
      (he : e.io? = some io.advance) (hlen : io.advance.len ≠ 0) (hread : e.isRead = d.isRead)
      (hpiece : e.piece? = none) (hfail : e.failed? = none) (hsec : d.sections = 0 ∧ e.sections = 2)

/-- How a section ends its call. -/
inductive Ends (τ : Sys) (d : Call) (ok : Bool) : Status → Prop
  | done {io : IoCall} (hd : d.io? = some io) (hp : d.piece? ≠ none) (hok : ok = true)
      (hlen : io.advance.len = 0) : Ends τ d ok .ok
  | handler (hp : d.piece? ≠ none) (hok : ok = false) : Ends τ d ok .handler
  | failed {err : Err} (h : τ.Fails ok d err) : Ends τ d ok (.err err)

/-- A section goes on to `e`, or returns from the call. -/
inductive Outcome (τ τ' : Sys) (d : Call) (ok : Bool) : Prop
  | moved {e : Call} (hio : e.io? ≠ none) (he : τ'.calls = e ::ₘ τ.calls.erase d)
      (hr : τ'.log.returned = τ.log.returned) (h : τ'.Section d e ok)
  | returned {st : Status} (hr : τ'.log.returned = τ.log.returned ++ [(d, st)])
      (h : τ.Ends d ok st) (hne : ∀ e : Call, e.io? ≠ none → τ'.calls ≠ e ::ₘ τ.calls.erase d)

theorem cons_erase_inj {cs : Multiset Call} {e' : Call} (h : e' ::ₘ cs = e ::ₘ cs) : e' = e :=
  (Multiset.cons_inj_left cs).1 h

theorem not_ended {cs : Multiset Call} (h : cs = e ::ₘ cs) : False := by
  have := congrArg Multiset.card h
  rw [Multiset.card_cons] at this
  omega

section

variable {τ₁ : Sys} {ok : Bool} {st : Status}

theorem outcome_returnCall (hcalls : τ₁.calls = τ.calls) (hlog : τ₁.log = τ.log)
    (h : τ.Ends d ok st) : τ.Outcome (τ₁.returnCall d st) d ok := by
  refine .returned ?_ h fun e _ he => ?_
  · rw [← hlog]
    rfl
  · rw [← hcalls] at he
    exact not_ended he

theorem outcome_ioEnd (hcalls : τ₁.calls = τ.calls) (hlog : τ₁.log = τ.log) (io : IoCall)
    (h : τ.Ends d ok st) : τ.Outcome (τ₁.ioEnd d io st) d ok := by
  unfold ioEnd
  split_ifs
  · refine .returned ?_ h fun e hio he => ?_
    · rw [← hlog]
      rfl
    · rw [← hcalls] at he
      obtain rfl := cons_erase_inj he
      exact hio rfl
  · exact outcome_returnCall hcalls hlog h

/-- A handler has returned. -/
theorem ends_handler {io : IoCall} {arg : HandlerArg} (hio : d.io? = some io)
    (hp : d.piece? = if arg = .ioError then none else some (io, arg))
    (hfail : d.failed? = if arg = .ioError then some io else none)
    (hend : arg.status ok ≠ .ok ∨ io.advance.len = 0) : τ.Ends d ok (arg.status ok) := by
  unfold HandlerArg.status Status.ofHandler at *
  split_ifs at * with harg hok
  · exact .failed (.found hfail)
  · exact .done hio (by simp [hp]) hok (hend.resolve_left (by simp))
  · exact .handler (by simp [hp]) (by simpa using hok)

end

/-- A discard is never submitted. -/
theorem discardCase_submit {io : IoCall} {f : File} {bOff : ℕ}
    (h : τ.discardCase io f = .handler (.submit bOff)) : False := by
  unfold discardCase at h
  split at h
  · cases h
  split at h
  · cases h
  split at h
  · cases h
  split at h
  · cases h
  · split_ifs at h
    cases h

theorem outcome_readLookup {io : IoCall} {ok : Bool} (hoff : io.off < fileMaxSize) :
    τ.Outcome (τ.readLookup (.read io) io) (.read io) ok := by
  unfold readLookup
  split
  · rename_i err hst
    exact outcome_returnCall rfl rfl (.failed (.status (by simp [Call.sections]) hst))
  · refine .moved (by simp [Call.io?]) rfl rfl (.lookup rfl rfl ⟨rfl, rfl, rfl⟩ rfl Nat.two_pos ?_
      (fun _ _ => ⟨by simp, by simp⟩) ?_)
    · rintro io'' arg ⟨⟩
      change _ = (τ.sup.findExtentFollow (some io.file) io.off).elim _ _
      cases τ.sup.findExtentFollow (some io.file) io.off <;> rfl
    · intro io'' hfail
      cases hx : τ.sup.findExtentFollow (some io.file) io.off with
      | none => simp [hx, Call.failed?] at hfail
      | some x =>
          simp only [hx, Call.failed?] at hfail
          split_ifs at hfail with harg
          obtain rfl := Option.some.inj hfail
          exact ⟨x, Super.nearest_of_followFrom hoff hx, HandlerArg.of_eq_ioError.1 harg⟩

theorem outcome_readReturn (io : IoCall) (arg : HandlerArg) (ok : Bool) :
    τ.Outcome (τ.readReturn (.readHandler io arg) io arg ok) (.readHandler io arg) ok := by
  unfold readReturn
  split_ifs with hend
  · exact outcome_returnCall rfl rfl (ends_handler rfl rfl rfl hend)
  · push Not at hend
    obtain ⟨harg, hok⟩ := HandlerArg.status_eq_ok.1 hend.1
    exact .moved (by simp [Call.io?]) rfl rfl
      (.next rfl (by simp [Call.piece?, harg]) hok rfl hend.2 rfl rfl rfl ⟨rfl, rfl⟩)

/-- The label `mapped` of `cyanfs_write`. -/
theorem outcome_writeMapped {τ₁ : Sys} {io io' : IoCall} {x : Extent} {ok : Bool}
    (hd : d.io? = some io) (hsame : SameRange io io') (hread : d.isRead = false)
    (hsec : 0 < d.sections) (hcalls : τ₁.calls = τ.calls)
    (hlog : τ₁.log.returned = τ.log.returned)
    (hmark : x.error = true → τ₁.sup.Nearest io'.off io'.file x) :
    τ.Outcome (τ₁.writeMapped d io' x) d ok := by
  refine .moved (e := .writeHandler io' (.of x io'.off) (some τ₁.sup.writerCurrent))
    (by simp [Call.io?]) (by rw [← hcalls]; rfl) (by rw [← hlog]; rfl)
    (.lookup hd rfl hsame hread.symm hsec (by simp) (fun _ _ => ⟨by simp, by simp⟩)
      fun io'' hfail => ?_)
  simp only [Call.failed?] at hfail
  split_ifs at hfail with harg
  obtain rfl := Option.some.inj hfail
  have herr := HandlerArg.of_eq_ioError.1 harg
  exact ⟨x, (hmark herr).of_files rfl, herr⟩

/-- The file of a section, and where in it the section is. -/
structure At (τ : Sys) (io : IoCall) (f : File) : Prop where
  file : τ.sup.filesById[io.file]? = some f
  lt : io.off < fileMaxSize
  inside : io.off / extentSize * extentSize < f.size

/-- The own extent of the file is what is visible. -/
theorem At.own {io : IoCall} {f : File} {x : Extent} (h : τ.At io f)
    (hx : f.findExtent io.off = some x) : τ.sup.Nearest io.off io.file x :=
  .own h.file h.inside (by rw [← File.findExtent_eq h.lt, hx])

/-- Without an extent of its own the file shows that of its parent. -/
theorem At.inherited {io : IoCall} {f : File} {x : Extent} (h : τ.At io f)
    (hown : f.findExtent io.off = none) (hx : τ.sup.findExtentFollow f.parent io.off = some x) :
    τ.sup.Nearest io.off io.file x := by
  cases hp : f.parent with
  | none =>
      rw [hp, Super.findExtentFollow] at hx
      cases h : τ.sup.filesById.size <;> simp [Super.followFrom] at hx
  | some p =>
      rw [hp] at hx
      exact .inherited h.file h.inside (by rw [← File.findExtent_eq h.lt, hown]) hp
        (Super.nearest_of_followFrom h.lt hx)

theorem outcome_writeLookup {io : IoCall} {f : File} {ok : Bool} (h : τ.At io f) :
    τ.Outcome (τ.writeLookup (.write io) io f) (.write io) ok := by
  have hset : ∀ e : Call, e.io? = some io → e.isRead = false → e.sections < 2 →
      (∀ io'' arg, e ≠ .readHandler io'' arg) →
      (∀ io'' bOff, e ≠ .discardHandler io'' (.submit bOff) ∧
        e ≠ .writeHandler io'' (.submit bOff) none) → e.failed? = none →
      τ.Outcome (τ.setCall (.write io) e) (.write io) ok := fun e hio hread hsec hfind hnop hfail =>
    .moved (by simp [hio]) rfl rfl (.lookup rfl hio ⟨rfl, rfl, rfl⟩ hread hsec
      (fun _ _ he => absurd he (hfind _ _)) hnop (by simp [hfail]))
  unfold writeLookup
  split
  · rename_i err hst
    exact outcome_ioEnd rfl rfl io (.failed (.status (by simp [Call.sections]) hst))
  split
  · rename_i x hx
    exact outcome_writeMapped rfl ⟨rfl, rfl, rfl⟩ rfl Nat.two_pos rfl rfl fun _ => h.own hx
  rename_i hown
  split
  · rename_i p hp
    split_ifs with herr hpend
    · exact outcome_ioEnd rfl rfl io
        (.failed (.marked (by simp [Call.sections]) rfl ⟨p, h.inherited hown hp, herr⟩))
    · exact hset _ rfl rfl Nat.two_pos (by simp) (fun _ _ => ⟨by simp, by simp⟩) rfl
    · exact hset _ rfl rfl Nat.one_lt_two (by simp) (fun _ _ => ⟨by simp, by simp⟩) rfl
  · exact hset _ rfl rfl Nat.one_lt_two (by simp) (fun _ _ => ⟨by simp, by simp⟩) rfl

theorem outcome_writeAlloc {io : IoCall} {f : File} {parent : Option ℕ} {ok : Bool} (h : τ.At io f)
    (hfree : τ.sup.freeExtents = τ.sup.free.card) :
    τ.Outcome (τ.writeAlloc (.writeAlloc io parent) io f parent ok) (.writeAlloc io parent) ok := by
  unfold writeAlloc
  split
  · rename_i hok
    exact outcome_ioEnd rfl rfl io (.failed (.memory rfl hok))
  split
  · rename_i err hst
    exact outcome_ioEnd rfl rfl io (.failed (.status (by simp [Call.sections]) hst))
  split
  · rename_i x hx
    exact outcome_writeMapped rfl ⟨rfl, rfl, rfl⟩ rfl Nat.one_pos rfl rfl fun _ => h.own hx
  rename_i hown
  split
  · rename_i hnone
    refine outcome_ioEnd rfl rfl io (.failed (.space ?_))
    by_contra hroom
    have hne : τ.sup.free ≠ ∅ := by
      intro he
      rw [he, Finset.card_empty] at hfree
      omega
    obtain ⟨b, hb⟩ := Super.exists_allocExtent (by omega) hne io.off hown
    rw [hb] at hnone
    cases hnone
  split
  · exact outcome_writeMapped rfl ⟨rfl, rfl, rfl⟩ rfl Nat.one_pos rfl rfl (by simp)
  · exact outcome_writeMapped rfl ⟨rfl, rfl, rfl⟩ rfl Nat.one_pos rfl rfl (by simp)

theorem outcome_writeReturn (io : IoCall) (arg : HandlerArg) (epoch : Option Bool) (ok : Bool) :
    τ.Outcome (τ.writeReturn (.writeHandler io arg epoch) io arg epoch ok)
      (.writeHandler io arg epoch) ok := by
  have key : ∀ τ₁ : Sys, τ₁.calls = τ.calls → τ₁.log = τ.log →
      τ.Outcome (if arg.status ok ≠ .ok ∨ io.advance.len = 0 then
        τ₁.ioEnd (.writeHandler io arg epoch) io (arg.status ok)
        else τ₁.setCall (.writeHandler io arg epoch) (.write io.advance))
        (.writeHandler io arg epoch) ok := by
    intro τ₁ hcalls hlog
    split_ifs with hend
    · exact outcome_ioEnd hcalls hlog io (ends_handler rfl rfl rfl hend)
    · push Not at hend
      obtain ⟨harg, hok⟩ := HandlerArg.status_eq_ok.1 hend.1
      exact .moved (e := .write io.advance) (by simp [Call.io?]) (by rw [← hcalls]; rfl)
        (by rw [← hlog]; rfl) (.next rfl (by simp [Call.piece?, harg]) hok rfl hend.2 rfl rfl rfl ⟨rfl, rfl⟩)
  unfold writeReturn
  cases epoch with
  | none => exact key τ rfl rfl
  | some w => exact key { τ with sup := { τ.sup with
      writers := Function.update τ.sup.writers w (τ.sup.writers w - 1) } } rfl rfl

/-- The two sections of `cyanfs_discard` make the same checks. -/
theorem outcome_discardCase {io : IoCall} {f : File} {m : Bool} (h : τ.At io f)
    (hio : d.io? = some io) (hread : d.isRead = false) (hsec : 0 < d.sections) :
    (∀ err, τ.discardCase io f = .fail err →
      τ.Outcome (τ.ioEnd d io (.err err)) d m) ∧
    ∀ arg, τ.discardCase io f = .handler arg →
      τ.Outcome (τ.setCall d (.discardHandler io arg)) d m := by
  refine ⟨fun err hc => outcome_ioEnd rfl rfl io (.failed ?_), fun arg hc => ?_⟩
  · unfold discardCase at hc
    split at hc
    · rename_i err' hst
      obtain rfl := DiscardCase.fail.inj hc
      exact .status hsec.ne' hst
    split at hc
    · cases hc
    split at hc
    · cases hc
    split at hc
    · cases hc
    rename_i x hx
    split_ifs at hc with herr hpend
    obtain rfl := DiscardCase.fail.inj hc
    exact .marked hsec.ne' hio ⟨x, h.own hx, herr⟩
  · refine .moved (by simp [Call.io?]) rfl rfl (.lookup hio rfl ⟨rfl, rfl, rfl⟩ hread.symm hsec (by simp)
      (fun io'' bOff => ⟨?_, by simp⟩) (by simp [Call.failed?]))
    rintro ⟨⟩
    exact discardCase_submit hc

theorem outcome_discardLookup {io : IoCall} {f : File} {ok : Bool} (h : τ.At io f) :
    τ.Outcome (τ.discardLookup (.discard io) io f ok) (.discard io) ok := by
  obtain ⟨hfail, hhandler⟩ := outcome_discardCase (d := .discard io) (m := ok) h rfl rfl Nat.two_pos
  unfold discardLookup
  split
  · rename_i err hc
    exact hfail err hc
  · rename_i arg hc
    exact hhandler arg hc
  · split_ifs with hok
    · exact .moved (by simp [Call.io?]) rfl rfl (.lookup rfl rfl ⟨rfl, rfl, rfl⟩ rfl Nat.one_lt_two
        (by simp) (fun _ _ => ⟨by simp, by simp⟩) (by simp [Call.failed?]))
    · exact outcome_ioEnd rfl rfl io (.failed (.memory rfl (by simpa using hok)))

theorem outcome_discardLocked {io : IoCall} {f : File} {ok : Bool} (h : τ.At io f) :
    τ.Outcome (τ.discardLocked (.discardLocked io) io f) (.discardLocked io) ok := by
  obtain ⟨hfail, hhandler⟩ :=
    outcome_discardCase (d := .discardLocked io) (m := ok) h rfl rfl Nat.one_pos
  unfold discardLocked
  split
  · rename_i err hc
    exact hfail err hc
  · rename_i arg hc
    exact hhandler arg hc
  · exact .moved (by simp [Call.io?]) rfl rfl (.lookup rfl rfl ⟨rfl, rfl, rfl⟩ rfl Nat.one_pos
      (by simp) (fun _ _ => ⟨by simp, by simp⟩) (by simp [Call.failed?]))

theorem outcome_discardReturn (io : IoCall) (arg : HandlerArg) (ok : Bool) :
    τ.Outcome (τ.discardReturn (.discardHandler io arg) io ok) (.discardHandler io arg) ok := by
  unfold discardReturn
  split_ifs with hend
  · refine outcome_ioEnd rfl rfl io ?_
    cases ok with
    | false => exact .handler (by simp [Call.piece?]) rfl
    | true => exact .done rfl (by simp [Call.piece?]) rfl (hend.resolve_left (by simp))
  · push Not at hend
    exact .moved (by simp [Call.io?]) rfl rfl
      (.next rfl (by simp [Call.piece?]) (by simpa using hend.1) rfl hend.2 rfl rfl rfl ⟨rfl, rfl⟩)

/-- The range of a call lies in its file, hence below `CYANFS_FILE_MAX_SIZE`. -/
theorem Sound.range {io : IoCall} (h : τ.Sound total) (hd : d ∈ τ.calls) (hio : d.io? = some io) :
    0 < io.len ∧ io.off + io.len ≤ fileMaxSize := by
  obtain ⟨f, hf, -, -, hlen, hend⟩ := h.calls.calls d hd io hio
  exact ⟨hlen, hend.trans (sizeValid_le (h.calls.sizes _ f hf))⟩

/-- **One section of a call.** -/
theorem outcome_step {io : IoCall} {ok : Bool} (h : τ.Sound total) (hd : d ∈ τ.calls)
    (hio : d.io? = some io) (hs : τ.step (.call d ok) = some τ') : τ.Outcome τ' d ok := by
  have hs := callStep_of_step hs
  obtain ⟨f, hf, -, -, hlen, hend⟩ := h.calls.calls d hd io hio
  have hoff : io.off < fileMaxSize := by
    have := h.range hd hio
    omega
  have hat : τ.At io f := ⟨hf, hoff, by
    have := Nat.div_mul_le_self io.off extentSize
    omega⟩
  cases d with
  | flusher | flusherQueue | flushType | compact | compactInit => cases hio
  | read io =>
      obtain rfl := Option.some.inj hio
      obtain rfl := Option.some.inj hs
      exact outcome_readLookup hoff
  | readHandler io arg =>
      obtain rfl := Option.some.inj hs
      exact outcome_readReturn io arg ok
  | write io =>
      obtain rfl := Option.some.inj hio
      rw [callStep, hf] at hs
      obtain rfl := Option.some.inj hs
      exact outcome_writeLookup hat
  | writeAlloc io parent =>
      obtain rfl := Option.some.inj hio
      rw [callStep, hf] at hs
      obtain rfl := Option.some.inj hs
      exact outcome_writeAlloc hat h.extents.sup.freeCount
  | writeHandler io arg epoch =>
      obtain rfl := Option.some.inj hs
      exact outcome_writeReturn io arg epoch ok
  | discard io =>
      obtain rfl := Option.some.inj hio
      rw [callStep, hf] at hs
      obtain rfl := Option.some.inj hs
      exact outcome_discardLookup hat
  | discardLocked io =>
      obtain rfl := Option.some.inj hio
      rw [callStep, hf] at hs
      obtain rfl := Option.some.inj hs
      exact outcome_discardLocked hat
  | discardHandler io arg =>
      obtain rfl := Option.some.inj hs
      exact outcome_discardReturn io arg ok

/-- A section that the thread goes on from. -/
theorem Outcome.section {ok : Bool} (h : τ.Outcome τ' d ok) (he : τ'.calls = e ::ₘ τ.calls.erase d)
    (hio : e.io? ≠ none) : τ'.Section d e ok := by
  cases h with
  | moved hio' he' hr hsec =>
      obtain rfl := cons_erase_inj (he.symm.trans he')
      exact hsec
  | returned hr hends hne => exact absurd he (hne e hio)

theorem sections_of_piece (h : c.piece? ≠ none) : c.sections = 0 := by
  cases c <;> first | rfl | exact absurd rfl h

theorem io_of_piece {io : IoCall} {arg : HandlerArg} (h : c.piece? = some (io, arg)) :
    c.io? = some io := by
  cases c with
  | readHandler io' arg' | writeHandler io' arg' epoch =>
      simp only [Call.piece?] at h
      split_ifs at h
      obtain ⟨rfl, -⟩ := Prod.mk.inj (Option.some.inj h)
      rfl
  | discardHandler io' arg' =>
      obtain ⟨rfl, -⟩ := Prod.mk.inj (Option.some.inj h)
      rfl
  | _ => cases h

theorem Sound.backend_lt {id i : ℕ} {x : Extent} (h : τ.Sound total)
    (hx : τ.sup.extentAt id i = some x) : x.backend < total :=
  h.totalExtents ▸ Super.bound_subset h.extents.sup (mem_bound_of_extentAt hx)

/-- **A handler call** that a section leads to. -/
theorem ok_handled {ok : Bool} (hsize : extentsOfSize size = some total) (h : τ.Sound total)
    (hs : τ.step (.call d ok) = some τ') (he : τ'.calls = e ::ₘ τ.calls.erase d)
    (hsec : τ'.Section d e ok) : ∀ p ∈ handled τ' e, p.Ok size := by
  intro p hp
  have h' := (h.step hs).1
  obtain ⟨⟨io, arg⟩, hpiece, rfl⟩ : ∃ x, e.piece? = some x ∧
      (⟨τ', e.isRead, x.1, x.2⟩ : HandlerCall) = p := by
    simpa [handled] using hp
  obtain ⟨hlen, hend⟩ := h'.range (he ▸ Multiset.mem_cons_self e _) (io_of_piece hpiece)
  have hoff : io.off < fileMaxSize := by omega
  cases hsec with
  | next hd hp hok hio hlen hread hnone hsec => simp [hnone] at hpiece
  | @lookup io₀ io' hd hio hsame hread hsec hfind hnop =>
      refine HandlerCall.ok_of_bound hsize hoff hlen fun bOff harg => ?_
      obtain rfl : arg = .submit bOff := harg
      cases e with
      | readHandler io₁ arg₁ =>
          obtain ⟨rfl, rfl⟩ : io₁ = io ∧ arg₁ = .submit bOff := by
            simp only [Call.piece?] at hpiece
            split_ifs at hpiece
            exact Prod.mk.inj (Option.some.inj hpiece)
          have hlook := hfind io₁ _ rfl
          cases hx : τ'.sup.findExtentFollow (some io₁.file) io₁.off with
          | none => simp [hx] at hlook
          | some x =>
              have hn := Super.nearest_of_followFrom hoff hx
              obtain ⟨k, hk⟩ := Super.Nearest.extentAt hn
              exact ⟨x, hn, h'.backend_lt hk, by simpa [hx] using hlook⟩
      | writeHandler io₁ arg₁ epoch =>
          obtain ⟨rfl, rfl⟩ : io₁ = io ∧ arg₁ = .submit bOff := by
            simp only [Call.piece?] at hpiece
            split_ifs at hpiece
            exact Prod.mk.inj (Option.some.inj hpiece)
          cases epoch with
          | none => exact absurd rfl (hnop io₁ bOff).2
          | some w =>
              have hne : Call.writeHandler io₁ (.submit bOff) (some w) ≠ d := by
                rintro rfl
                exact absurd hsec (Nat.lt_irrefl _)
              obtain ⟨-, ⟨x, hx, harg⟩, -⟩ := node_of_mapped h hs (by
                rw [he, Multiset.count_cons_self, Multiset.count_erase_of_ne hne]
                exact Nat.lt_succ_self _)
              refine ⟨x, ?_, h'.backend_lt hx, harg⟩
              obtain ⟨f, hf, hx⟩ := Super.extentAt_eq_some.1 hx
              refine ⟨f, hf, ?_⟩
              rw [IoCall.index, fileIndex_of_lt (extentFrom_lt_of_lt hoff), extentFrom_of_lt hoff] at hx
              exact hx
      | discardHandler io₁ arg₁ =>
          obtain ⟨rfl, rfl⟩ := Prod.mk.inj (Option.some.inj hpiece)
          exact absurd rfl (hnop io₁ bOff).1
      | _ => cases hpiece

/-! ### The whole call -/

/-- What a thread has done so far: its handler calls tile the range up to where it is, and
each section brings it nearer to the end. -/
structure Tiled (size : ℕ) (io : IoCall) (c : Call) (τ : Sys) (d : Call) (n : ℕ)
    (ps : List HandlerCall) : Prop where
  mem : d ∈ τ.calls
  isRead : d.isRead = c.isRead
  range : ∃ io', d.io? = some io' ∧ io'.file = io.file ∧ io'.off + io'.len = io.off + io.len ∧
    Tiles io.off ps (if d.piece? = none then io'.off else io'.off + io'.space) ∧
    n + 3 * io'.len + d.sections ≤ 3 * io.len + 2
  ok : ∀ p ∈ ps, p.Ok size

/-- The handler call that begins prolongs the tiling. -/
theorem tiles_handled {a : ℕ} {io : IoCall} (h : Tiles a ps io.off) (hio : e.io? = some io) :
    Tiles a (ps ++ Sys.handled τ e) (if e.piece? = none then io.off else io.off + io.space) := by
  cases hp : e.piece? with
  | none => simpa [Sys.handled, hp] using h
  | some x =>
      obtain ⟨io', arg⟩ := x
      obtain rfl : io = io' := Option.some.inj (hio.symm.trans (io_of_piece hp))
      rw [if_neg (by simp), Sys.handled, hp]
      exact h.concat ⟨τ, e.isRead, io, arg⟩ rfl

theorem Tiled.own {io : IoCall} {ok : Bool} (hsize : extentsOfSize size = some total)
    (hτ : τ.Sound total) (h : Tiled size io c τ d n ps) (hs : τ.step (.call d ok) = some τ')
    (he : τ'.calls = e ::ₘ τ.calls.erase d) (hio : e.io? ≠ none) :
    Tiled size io c τ' e (n + 1) (ps ++ handled τ' e) := by
  obtain ⟨io₁, hio₁, hfile, hend, htiles, hn⟩ := h.range
  have hsec := (outcome_step hτ h.mem hio₁ hs).section he hio
  have hok := ok_handled hsize hτ hs he hsec
  refine ⟨he ▸ Multiset.mem_cons_self e _, ?_, ?_, fun p hp => ?_⟩
  · cases hsec with
    | lookup hd he' hsame hread => exact hread.trans h.isRead
    | next hd hp hok he' hlen hread => exact hread.trans h.isRead
  · cases hsec with
    | @lookup io₂ io' hd he' hsame hread hsec =>
        obtain rfl := Option.some.inj (hio₁.symm.trans hd)
        obtain ⟨hf, ho, hl⟩ := hsame
        have hnone : d.piece? = none := by
          by_contra hp
          have := sections_of_piece hp
          omega
        rw [if_pos hnone, ← ho] at htiles
        refine ⟨io', he', hf.trans hfile, by omega, tiles_handled htiles he', by omega⟩
    | @next io₂ hd hp hok he' hlen hread hpiece hsec =>
        obtain rfl := Option.some.inj (hio₁.symm.trans hd)
        rw [if_neg hp] at htiles
        have hadv := advance_end io₁
        have hoff : io₁.off < fileMaxSize := by
          have := hτ.range h.mem hio₁
          omega
        have hpos := IoCall.space_pos hoff (hτ.range h.mem hio₁).1
        have hleft : io₁.advance.len = io₁.len - io₁.space := rfl
        refine ⟨io₁.advance, he', (file_advance io₁).trans hfile, by omega, ?_, by omega⟩
        exact tiles_handled htiles he'
  · rcases List.mem_append.1 hp with hp | hp
    · exact h.ok p hp
    · exact hok p hp

/-- **The handler calls of a thread tile its range**, whatever happens in between. -/
theorem Follows.tiled {io : IoCall} (hsize : extentsOfSize size = some total) (hσ : σ.Sound total)
    (hio : c.io? = some io) (hc : c.sections = 2) (h : Follows σ c τ d n ps) :
    τ.Sound total ∧ Tiled size io c τ d n ps := by
  induction h with
  | enter hmem =>
      have hnone : c.piece? = none := by
        by_contra hp
        have := sections_of_piece hp
        omega
      refine ⟨hσ, hmem, rfl, ⟨io, hio, rfl, rfl, ?_, by omega⟩, by simp⟩
      rw [if_pos hnone]
      rfl
  | @other τ τ' d n ps l _ hs hl ih =>
      obtain ⟨hτ, ht⟩ := ih
      refine ⟨(hτ.step hs).1, ?_, ht.isRead, ht.range, ht.ok⟩
      by_cases hcall : ∃ ok, l = .call d ok
      · obtain ⟨ok, rfl⟩ := hcall
        have hle := Multiset.count_le_of_le d (kept_callStep (callStep_of_step hs))
        rw [Multiset.count_erase_self] at hle
        have := hl ok rfl
        exact Multiset.count_pos.1 (by omega)
      · exact kept_step hs ht.mem fun ok h => hcall ⟨ok, h⟩
  | @own τ τ' d e n ps ok _ hs he hio ih =>
      obtain ⟨hτ, ht⟩ := ih
      exact ⟨(hτ.step hs).1, ht.own hsize hτ hs he hio⟩

/-- The file of a call is there, so its next section can run. -/
theorem exists_section {io : IoCall} (h : τ.Sound total) (hd : d ∈ τ.calls) (hio : d.io? = some io)
    (hbug : τ.sup.bug = none) (ok : Bool) : ∃ τ', τ.step (.call d ok) = some τ' := by
  obtain ⟨f, hf, -⟩ := h.calls.calls d hd io hio
  have hcall : τ.step (.call d ok) = τ.callStep d ok := by
    simp [step, hbug, hd]
  rw [hcall]
  cases d with
  | flusher | flusherQueue | flushType | compact | compactInit => cases hio
  | write io' | writeAlloc io' parent | discard io' | discardLocked io' =>
      obtain rfl := Option.some.inj hio
      simp [callStep, hf]
  | _ => exact ⟨_, rfl⟩

/-- What the status says with which a thread returns. -/
def Meant (τ : Sys) (d : Call) (ok : Bool) (io : IoCall) (ps : List HandlerCall) : Status → Prop
  | .ok => Tiles io.off ps (io.off + io.len)
  | .handler => d.piece? ≠ none ∧ ok = false
  | .err err => τ.Fails ok d err

theorem Returns.meant {io : IoCall} {ok : Bool} {st : Status} (hτ : τ.Sound total)
    (ht : Tiled size io c τ d n ps) (h : τ.Returns d ok st τ') : τ.Meant d ok io ps st := by
  obtain ⟨io', hio', hfile, hend, htiles, -⟩ := ht.range
  cases outcome_step hτ ht.mem hio' h.1 with
  | moved hio he hr hsec =>
      have := congrArg List.length (hr.symm.trans h.2)
      simp at this
  | @returned st' hr hends hne =>
      obtain rfl : st' = st := by
        have := hr.symm.trans h.2
        simpa using this
      cases hends with
      | handler hp hok => exact ⟨hp, hok⟩
      | failed hf => exact hf
      | done hd hp hok hlen =>
          -- the last piece ends where the range ends
          obtain rfl := Option.some.inj (hio'.symm.trans hd)
          have hsum := advance_end io'
          have hoff : io'.advance.off = io'.off + io'.space := rfl
          rw [if_neg hp] at htiles
          change Tiles io.off ps (io.off + io.len)
          rw [show io.off + io.len = io'.off + io'.space by omega]
          exact htiles

theorem Tiled.goes_on {io : IoCall} {ok : Bool} (hτ : τ.Sound total)
    (ht : Tiled size io c τ d n ps) (hs : τ.step (.call d ok) = some τ') :
    (∃ e, e.io? ≠ none ∧ τ'.calls = e ::ₘ τ.calls.erase d ∧ τ'.log.returned = τ.log.returned ∧
      ∀ io', e.failed? = some io' → τ'.Marked io') ∨ ∃ st, τ.Returns d ok st τ' := by
  obtain ⟨io', hio', -⟩ := ht.range
  cases outcome_step hτ ht.mem hio' hs with
  | returned hr hends hne => exact .inr ⟨_, hs, hr⟩
  | moved hio he hr hsec =>
      refine .inl ⟨_, hio, he, hr, fun io'' hfail => ?_⟩
      cases hsec with
      | lookup hd he' hsame hread hlt hfind hnop hmark => exact hmark io'' hfail
      | next hd hp hok he' hlen hread hpiece hnone => rw [hnone] at hfail; cases hfail

end Sys

/-- **Ranges are split exactly, and stay on the right extent.**  A call of `cyanfs_read`,
`cyanfs_write` or `cyanfs_discard` has passed the checks in any state of any run.  However
far its thread has come, its handler calls tile the range from the beginning, in ascending
order and without a gap; each lies in one extent of the file and, if submitted, in the
backend extent that is bound there.  The thread can always go on, takes fewer than three
sections for each byte, and each section goes on or returns.  When it returns 0 the whole
range is tiled; it returns something else only if its handler did, if the super cannot be
used, if memory or space has run out, or if the visible extent carries the error mark.  No
word of the computation loses a bit. -/
theorem ranges_split {size total n : ℕ} {discard compact : Bool} {uuid : Uuid} {disk : Buf}
    {σ₀ τ : Sys} {c d : Call} {l : Label} {io : IoCall} {ps : List HandlerCall}
    (hsize : extentsOfSize size = some total)
    (hr : (Sys.opened total discard compact uuid disk).Reachable σ₀) (hl : c.label = some l)
    (hio : c.io? = some io) (hs : σ₀.step l = some (σ₀.addCall c))
    (h : Sys.Follows (σ₀.addCall c) c τ d n ps) :
    (∃ io', d.io? = some io' ∧ io'.file = io.file ∧ io'.off + io'.len = io.off + io.len ∧
      Tiles io.off ps (if d.piece? = none then io'.off else io'.off + io'.space) ∧
      Words.Exact total io'.off io'.len) ∧
    (∀ p ∈ ps, p.Ok size) ∧
    (∀ ok τ', τ.step (.call d ok) = some τ' →
      (∃ e, e.io? ≠ none ∧ τ'.calls = e ::ₘ τ.calls.erase d ∧ τ'.log.returned = τ.log.returned ∧
        ∀ io', e.failed? = some io' → τ'.Marked io') ∨ ∃ st, τ.Returns d ok st τ') ∧
    (∀ ok st τ', τ.Returns d ok st τ' → τ.Meant d ok io ps st) ∧
    n < 3 * io.len ∧ (τ.sup.bug = none → ∀ ok, ∃ τ', τ.step (.call d ok) = some τ') ∧
    (Words.superOpen (.ofNat size)).map UInt32.toNat = some total ∧
    (∀ f, σ₀.sup.filesById[io.file]? = some f → Words.fileSizeValidate (.ofNat f.size) = true ∧
      ∀ off len : UInt64, Words.rangeOk (.ofNat f.size) off len = true ↔
        Sys.rangeOk f off.toNat len.toNat) := by
  have hσ₀ := Sys.Reachable.sound hr
  have hσ := (hσ₀.step hs).1
  have hsec : c.sections = 2 := by
    cases c <;> first | rfl | cases hl
  obtain ⟨hτ, ht⟩ := h.tiled hsize hσ hio hsec
  obtain ⟨io', hio', hfile, hend, htiles, hn⟩ := ht.range
  obtain ⟨hlen, hmax⟩ := hτ.range ht.mem hio'
  obtain ⟨htotal, hdev⟩ := total_of_extentsOfSize hsize
  refine ⟨⟨io', hio', hfile, hend, htiles, Words.exact_of_lt htotal hmax (by omega)⟩, ht.ok,
    fun ok τ' hs => ht.goes_on hτ hs, fun ok st τ' hret => hret.meant hτ ht, by omega,
    fun hbug => Sys.exists_section hτ ht.mem hio' hbug, ?_, fun f hf => ?_⟩
  · have hlt : size < 18446744073709551616 := by
      unfold extentsOfSize at hsize
      split_ifs at hsize with hbad
      push Not at hbad
      simp only [fileMaxSize, superBlockSize] at hbad
      omega
    rw [Words.toNat_superOpen, UInt64.toNat_ofNat_of_lt' hlt, hsize]
  · have hv := hσ₀.calls.sizes _ f hf
    have hle := sizeValid_le hv
    refine ⟨(Words.fileSizeValidate_iff _).2 ?_, Words.rangeOk_iff f hle⟩
    rw [UInt64.toNat_ofNat_of_lt' (hle.trans_lt (by decide))]
    exact hv

namespace Sys

/-- A write enters its call, or fails the checks of `cyanfs_write`. -/
theorem step_write_eq {σ τ : Sys} {file off len : ℕ} (hs : σ.step (.write file off len) = some τ) :
    τ = σ ∨ τ = σ.addCall (.write ⟨file, off, len, false⟩) := by
  have hb := bug_of_step hs
  rw [step, if_neg (by simp [hb])] at hs
  split at hs
  · cases hs
  · obtain rfl := Option.some.inj hs
    split_ifs
    · exact .inr rfl
    · exact .inl rfl

end Sys

/-- The pieces on both sides of the border of two extents. -/
def lowIo : IoCall := ⟨1, 1044480, 8192, false⟩
def highIo : IoCall := ⟨1, 1048576, 4096, true⟩

/-- A new file of two extents is opened, and 8 KiB are written across their border. -/
def borderLabels : List Label :=
  [.create .letter, .truncate 1 2097152, .open 1 true, .write 1 1044480 8192,
    .call (.write lowIo) true, .call (.writeAlloc lowIo none) true,
    .call (.writeHandler { lowIo with newJournal := true } (.submit (mapExtentOffset 7 1044480))
      (some false)) true,
    .call (.write highIo) true, .call (.writeAlloc highIo none) true,
    .call (.writeHandler highIo (.submit (mapExtentOffset 8 1048576)) (some false)) true]

/-- The flushes of the metadata that `cyanfs_create` and `cyanfs_truncate` have left. -/
def borderFlushes : Multiset Call :=
  Multiset.replicate 2 (.flusher superMaxInflightJournal false none)

theorem exists_border (k : ℕ) (cs : Multiset Call)
    (h : (Sys.small.run (borderLabels.take k)).map (fun τ => decide (τ.calls = cs + borderFlushes)) =
      some true) :
    ∃ τ, Sys.small.run (borderLabels.take k) = some τ ∧ τ.calls = cs + borderFlushes := by
  obtain ⟨τ, hrun, hc⟩ := Option.map_eq_some_iff.1 h
  exact ⟨τ, hrun, of_decide_eq_true hc⟩

/-- A write across the border of two extents, on a device of 16: five sections lead to two
handler calls, both of which are submitted, and the thread returns 0. -/
theorem ranges_split_border :
    let size := superBlockSize + 16 * extentSize
    ∃ σ₀ τ τ' d p q b b', (Sys.opened 16 true true smallUuid smallDisk).Reachable σ₀ ∧
      Sys.Follows (σ₀.addCall (.write lowIo)) (.write lowIo) τ d 5 [p, q] ∧
      p.arg = .submit b ∧ q.arg = .submit b' ∧ p.Ok size ∧ q.Ok size ∧
      τ.Returns d true .ok τ' ∧ Tiles 1044480 [p, q] 1052672 := by
  intro size
  let d₆ : Call := .writeHandler { lowIo with newJournal := true }
    (.submit (mapExtentOffset 7 1044480)) (some false)
  let d₉ : Call := .writeHandler highIo (.submit (mapExtentOffset 8 1048576)) (some false)
  obtain ⟨σ₃, h₃, c₃⟩ := exists_border 3 0 (by decide +kernel)
  obtain ⟨σ₄, h₄, c₄⟩ := exists_border 4 {.write lowIo} (by decide +kernel)
  obtain ⟨σ₅, h₅, c₅⟩ := exists_border 5 {.writeAlloc lowIo none} (by decide +kernel)
  obtain ⟨σ₆, h₆, c₆⟩ := exists_border 6 {d₆} (by decide +kernel)
  obtain ⟨σ₇, h₇, c₇⟩ := exists_border 7 {.write highIo} (by decide +kernel)
  obtain ⟨σ₈, h₈, c₈⟩ := exists_border 8 {.writeAlloc highIo none} (by decide +kernel)
  obtain ⟨σ₉, h₉, c₉⟩ := exists_border 9 {d₉} (by decide +kernel)
  have e₃ : σ₃.step (.write 1 1044480 8192) = some (σ₃.addCall (.write lowIo)) ∧
      σ₄ = σ₃.addCall (.write lowIo) := by
    have hs := Sys.run_concat h₃ h₄
    rcases Sys.step_write_eq hs with rfl | rfl
    · rw [c₃] at c₄
      exact absurd c₄ (by decide)
    · exact ⟨hs, rfl⟩
  -- a section takes its call away and leaves the next one
  have next : ∀ {τ τ' : Sys} {d e : Call}, τ.calls = {d} + borderFlushes →
      τ'.calls = {e} + borderFlushes → τ'.calls = e ::ₘ τ.calls.erase d := by
    intro τ τ' d e hd he
    rw [hd, he, Multiset.singleton_add, Multiset.singleton_add, Multiset.erase_cons_head]
  obtain ⟨e₃, rfl⟩ := e₃
  have f₅ := Sys.Follows.own (.enter (Multiset.mem_cons_self _ _)) (Sys.run_concat h₄ h₅)
    (next c₄ c₅) (by simp [Call.io?])
  have f₆ := Sys.Follows.own f₅ (Sys.run_concat h₅ h₆) (next c₅ c₆) (by simp [Call.io?, d₆])
  have f₇ := Sys.Follows.own f₆ (Sys.run_concat h₆ h₇) (next c₆ c₇) (by simp [Call.io?])
  have f₈ := Sys.Follows.own f₇ (Sys.run_concat h₇ h₈) (next c₇ c₈) (by simp [Call.io?])
  have f₉ := Sys.Follows.own f₈ (Sys.run_concat h₈ h₉) (next c₈ c₉) (by simp [Call.io?, d₉])
  have hsize : extentsOfSize size = some 16 := by decide
  obtain ⟨-, hok, -, hret, -⟩ := ranges_split hsize (.small h₃) rfl rfl e₃ f₉
  obtain ⟨σ₁₀, h₁₀, hr⟩ := Option.map_eq_some_iff.1 (show (Sys.small.run borderLabels).map
    (fun τ => τ.log.returned) = some [(d₉, .ok)] by decide +kernel)
  have hnone : σ₉.log.returned = [] := by
    obtain ⟨τ, h, hr⟩ := Option.map_eq_some_iff.1 (show (Sys.small.run (borderLabels.take 9)).map
      (fun τ => τ.log.returned) = some [] by decide +kernel)
    obtain rfl := Option.some.inj (h₉.symm.trans h)
    exact hr
  have hreturn : σ₉.Returns d₉ true .ok σ₁₀ := ⟨Sys.run_concat h₉ h₁₀, by rw [hnone, hr]; rfl⟩
  exact ⟨σ₃, σ₉, σ₁₀, d₉, _, _, _, _, .small h₃, f₉, rfl, rfl, hok _ List.mem_cons_self,
    hok _ (List.mem_cons_of_mem _ List.mem_cons_self), hreturn, hret _ _ _ hreturn⟩

end Cyanfs
