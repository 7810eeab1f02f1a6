/-
# Block requests of the Linux driver

`cyanfs_file_map_bio` and `cyanfs_file_split_bio` of `linux/main.c`.  The driver
hands a bio to `cyanfs_read`, `cyanfs_write` or `cyanfs_discard`, which call
`cyanfs_file_split_bio` for one extent after the other.  Each call splits the
front off the bio (`bio_split`, `bio_chain`) unless it has come to the end, and
then completes that part, submits it, or puts it into the queue of the core to be
mapped again.

The chaining of bios is `Lib.Chained`.  What the core answers is a list of
`Answer`s: it may fail before it calls the handler, or call it with a map type,
and then the allocation of `cyanfs_requeue` may fail.  The pieces are those of the
core, `mapExtentSpace`.

A fragment that is split off and whose `cyanfs_requeue` fails is lost: the error
makes `cyanfs_file_map_bio` end the bio it was given, which waits for the
fragment.  This is the only way to lose one (`fragments_once_iff`).
-/

import Cyanfs.Core.Base
import Cyanfs.Lib.Chained

namespace Cyanfs

open Lib

/-- `SECTOR_SIZE`. -/
abbrev sectorSize : ℕ := 512

/-- The parts of `struct bio` that the driver reads: `bi_iter` in sectors and
whether it is a flush. -/
structure Bio where
  sector : ℕ
  sectors : ℕ
  flush : Bool

/-- What the driver does with a bio. -/
inductive Fate where
  | submitted | ended | queued
deriving DecidableEq

/-- What the core does next: it fails, or it calls the handler; `room` is the
result of the allocation in `cyanfs_requeue`. -/
inductive Answer where
  | fail
  | handler (type : MapType) (room : Bool)
deriving DecidableEq

/-- The bios of one request.  `device` are those submitted and not yet ended,
`queue` those that wait for `cyanfs_file_map_bio`, and `log` lists what the last
call of it has done. -/
structure Blk where
  jobs : Chained
  bio : ℕ → Bio
  device : Multiset ℕ
  queue : Multiset ℕ
  log : List (ℕ × Fate)

namespace Blk

variable (st : Blk)

/-- `bio_endio` by the driver. -/
def endBio (i : ℕ) : Blk :=
  { st with jobs := st.jobs.finish (i + 1) i, log := st.log ++ [(i, .ended)] }

/-- `submit_bio`. -/
def submitBio (i : ℕ) : Blk :=
  { st with device := i ::ₘ st.device, log := st.log ++ [(i, .submitted)] }

/-- `cyanfs_requeue` for a bio. -/
def requeueBio (i : ℕ) (room : Bool) : Bool × Blk :=
  if room then (true, { st with queue := i ::ₘ st.queue, log := st.log ++ [(i, .queued)] })
  else (false, st)

/-- `bio_split` and `bio_chain`: the first `n` sectors become a bio of their own. -/
def splitBio (i n : ℕ) : Blk :=
  let b := st.bio i
  { st with
    jobs := st.jobs.split i
    bio := Function.update
      (Function.update st.bio i { b with sector := b.sector + n, sectors := b.sectors - n })
      st.jobs.next { b with sectors := n } }

/-- The `switch` of `cyanfs_file_split_bio`. -/
def mapPiece (i : ℕ) (type : MapType) (room : Bool) : Bool × Blk :=
  match type with
  | .nop => (true, st.endBio i)
  | .submit => (true, st.submitBio i)
  | .requeue => st.requeueBio i room

/-- `cyanfs_file_split_bio`: whether it returns `0`, and the bios after it. -/
def fileSplitBio (i : ℕ) (type : MapType) (len : ℕ) (room : Bool) : Bool × Blk :=
  if len < (st.bio i).sectors * sectorSize then
    (st.splitBio i (len / sectorSize)).mapPiece st.jobs.next type room
  else st.mapPiece i type room

/-- The core gets an extent of `len` bytes mapped, or fails before it calls the
handler. -/
def coreExtent (i : ℕ) (a : Answer) (len : ℕ) : Bool × Blk :=
  match a with
  | .fail => (false, st)
  | .handler type room => st.fileSplitBio i type len room

/-- The loop of `cyanfs_read`, `cyanfs_write` and `cyanfs_discard` on the range
`[off, off + len)`. -/
def coreLoop (i : ℕ) : List Answer → ℕ → ℕ → Blk → Bool × Blk
  | [], _, len, st => (decide (len = 0), st)
  | a :: as, off, len, st =>
      if len = 0 then (true, st)
      else
        let l := mapExtentSpace off len
        let r := st.coreExtent i a l
        if r.1 then coreLoop i as (off + l) (len - l) r.2 else r

/-- The call of the core for the range of a bio, with the range check in front. -/
def coreCall (fSize i : ℕ) (answers : List Answer) (off len : ℕ) : Bool × Blk :=
  if len = 0 ∨ fSize < off ∨ fSize - off < len then (false, st) else coreLoop i answers off len st

/-- `cyanfs_file_map_bio` on a file of `fSize` bytes; `status` is the result of
`cyanfs_file_status`. -/
def fileMapBio (fSize i : ℕ) (status : Bool) (answers : List Answer) : Blk :=
  let st := { st with log := [] }
  let b := st.bio i
  if b.flush ∨ b.sectors = 0 then if status then st.submitBio i else st.endBio i
  else
    match st.coreCall fSize i answers (b.sector * sectorSize) (b.sectors * sectorSize) with
    | (true, st) => st
    | (false, st) => st.endBio i

/-- What can happen to the bios of a request. -/
inductive Event where
  /-- `cyanfs_file_map_bio` runs for a bio that waits for it -/
  | map (i : ℕ) (status : Bool) (answers : List Answer)
  /-- the device ends a bio -/
  | complete (i : ℕ)

/-- One event. -/
def step (fSize : ℕ) : Event → Option Blk
  | .map i status answers =>
      if i ∈ st.queue then
        some ({ st with queue := st.queue.erase i }.fileMapBio fSize i status answers)
      else none
  | .complete i =>
      if i ∈ st.device then
        some { st with device := st.device.erase i, jobs := st.jobs.finish (i + 1) i }
      else none

/-- A run of the given events. -/
def run (fSize : ℕ) : Blk → List Event → Option Blk
  | st, [] => some st
  | st, e :: es => (st.step fSize e).bind fun st => run fSize st es

/-- A request that is about to be mapped. -/
def start (b : Bio) : Blk := ⟨.root, fun _ => b, 0, {0}, []⟩

end Blk

/-! ### Pieces are whole sectors -/

theorem mapExtentSpace_sectors {o m : ℕ} (hm : 0 < m)
    (h : o * sectorSize + m * sectorSize ≤ fileMaxSize) :
    ∃ p, mapExtentSpace (o * sectorSize) (m * sectorSize) = p * sectorSize ∧ 0 < p ∧ p ≤ m := by
  have hlt : o * sectorSize < fileMaxSize := by
    simp only [sectorSize, fileMaxSize] at *
    omega
  refine ⟨min (2048 - o % 2048) m, ?_, ?_, min_le_right _ _⟩
  · rw [mapExtentSpace, extentFrom_of_lt hlt]
    simp only [extentBegin, extentSize, sectorSize]
    omega
  · omega

namespace Blk

variable {st st' : Blk} {fSize i n : ℕ} {L : Multiset ℕ}

/-- How often the last call has disposed of bio `k`. -/
def times (st : Blk) (k : ℕ) : ℕ := (st.log.map Prod.fst).count k

/-- In the middle of `cyanfs_file_map_bio` for bio `i`: the bios from `n` on have
been split off and disposed of once, and `i` is still to be. -/
structure Splitting (st : Blk) (i n : ℕ) (L : Multiset ℕ) : Prop where
  counted : st.jobs.Counted (i ::ₘ (st.device + st.queue + L))
  older : i < n
  le : n ≤ st.jobs.next
  log : ∀ k, st.times k = if n ≤ k ∧ k < st.jobs.next then 1 else 0

theorem times_append (st : Blk) (j k : ℕ) (f : Fate) :
    ((st.log ++ [(j, f)]).map Prod.fst).count k = st.times k + if k = j then 1 else 0 := by
  rw [List.map_append, List.count_append, times]
  congr 1
  by_cases h : k = j
  · simp [h]
  · simp [h, Ne.symm h]

/-- A bio that is disposed of leaves the hands of the driver. -/
theorem mapPiece_spec (type : MapType) (room : Bool) {j : ℕ} {M : Multiset ℕ}
    (h : st.jobs.Counted (j ::ₘ (st.device + st.queue + M)))
    (hr : ¬ (type = .requeue ∧ room = false)) :
    ∃ st', st.mapPiece j type room = (true, st') ∧ st'.bio = st.bio ∧
      st'.jobs.next = st.jobs.next ∧ st'.jobs.Counted (st'.device + st'.queue + M) ∧
      ∀ k, st'.times k = st.times k + if k = j then 1 else 0 := by
  cases type with
  | nop =>
      refine ⟨st.endBio j, rfl, rfl, Chained.next_finish _ _ _, h.finish (Nat.lt_succ_self j), ?_⟩
      exact fun k => st.times_append j k .ended
  | submit =>
      refine ⟨st.submitBio j, rfl, rfl, rfl, ?_, fun k => st.times_append j k .submitted⟩
      simpa only [submitBio, Multiset.cons_add] using h
  | requeue =>
      have hroom : room = true := by
        cases room
        · exact absurd ⟨rfl, rfl⟩ hr
        · rfl
      subst hroom
      refine ⟨{ st with queue := j ::ₘ st.queue, log := st.log ++ [(j, .queued)] }, rfl, rfl, rfl, ?_,
        fun k => st.times_append j k .queued⟩
      simpa only [Multiset.add_cons, Multiset.cons_add] using h

/-- A fragment that is split off, before it is disposed of. -/
theorem Splitting.splitBio (h : st.Splitting i n L) (m : ℕ) :
    (st.splitBio i m).jobs.Counted (st.jobs.next ::ₘ
      ((st.splitBio i m).device + (st.splitBio i m).queue + (i ::ₘ L))) := by
  have := h.counted.split (Multiset.mem_cons_self i _)
  rwa [← Multiset.add_cons] at this

/-- A fragment is split off and disposed of. -/
theorem Splitting.inner (h : st.Splitting i n L) (type : MapType) (room : Bool) {len : ℕ}
    (hlen : len < (st.bio i).sectors * sectorSize) (hr : ¬ (type = .requeue ∧ room = false)) :
    ∃ st', st.fileSplitBio i type len room = (true, st') ∧ st'.Splitting i n L ∧
      (st'.bio i).sector = (st.bio i).sector + len / sectorSize ∧
      (st'.bio i).sectors = (st.bio i).sectors - len / sectorSize := by
  obtain ⟨st', he, hbio, hnext, hcounted, htimes⟩ :=
    mapPiece_spec type room (h.splitBio (len / sectorSize)) hr
  have hne : i ≠ st.jobs.next := by
    have := h.older
    have := h.le
    omega
  refine ⟨st', ?_, ⟨?_, h.older, ?_, fun k => ?_⟩, ?_, ?_⟩
  · rw [fileSplitBio, if_pos hlen, he]
  · rwa [Multiset.add_cons] at hcounted
  · rw [hnext]
    exact h.le.trans (Nat.le_succ _)
  · have hold : (st.splitBio i (len / sectorSize)).times k = st.times k := rfl
    rw [htimes, hold, h.log, hnext, show (st.splitBio i (len / sectorSize)).jobs.next =
      st.jobs.next + 1 from rfl]
    have := h.le
    by_cases hk : k = st.jobs.next
    · subst hk
      rw [if_neg (by omega), if_pos rfl, if_pos (by omega)]
    · rw [if_neg hk, Nat.add_zero]
      congr 1
      rw [eq_iff_iff]
      omega
  · rw [hbio]
    simp [Blk.splitBio, hne]
  · rw [hbio]
    simp [Blk.splitBio, hne]

/-! ### One call of `cyanfs_file_map_bio` -/

/-- The answers lead to a failing `cyanfs_requeue` for a piece that is not the
last of the range. -/
def loses : List Answer → ℕ → ℕ → Bool
  | [], _, _ => false
  | a :: as, off, len =>
      if len = 0 then false
      else
        match a with
        | .fail => false
        | .handler .requeue false => decide (mapExtentSpace off len < len)
        | .handler _ _ => loses as (off + mapExtentSpace off len) (len - mapExtentSpace off len)

/-- How the core comes back from mapping bio `i`: all of it is disposed of, or the
rest is left to the caller, and then a fragment may be lost. -/
inductive CoreEnd (i n : ℕ) (L : Multiset ℕ) : Bool → Bool → Blk → Prop
  | whole {st : Blk} (counted : st.jobs.Counted (st.device + st.queue + L))
      (log : ∀ k, st.times k = if k = i ∨ n ≤ k ∧ k < st.jobs.next then 1 else 0) :
      CoreEnd i n L true false st
  | rest {st : Blk} (h : st.Splitting i n L) : CoreEnd i n L false false st
  | lost {st : Blk} {c : ℕ} (hc : n ≤ c ∧ c < st.jobs.next) (hi : i < n)
      (counted : st.jobs.Counted (i ::ₘ (st.device + st.queue + (c ::ₘ L))))
      (log : ∀ k, st.times k = if k ≠ c ∧ n ≤ k ∧ k < st.jobs.next then 1 else 0) :
      CoreEnd i n L false true st

/-- The last piece is the bio itself. -/
theorem Splitting.last (h : st.Splitting i n L) (type : MapType) (room : Bool) {len : ℕ}
    (hlen : ¬ len < (st.bio i).sectors * sectorSize) :
    ∃ ok st', st.fileSplitBio i type len room = (ok, st') ∧ CoreEnd i n L ok false st' := by
  rw [fileSplitBio, if_neg hlen]
  by_cases hr : type = .requeue ∧ room = false
  · obtain ⟨rfl, rfl⟩ := hr
    exact ⟨false, st, rfl, .rest h⟩
  · obtain ⟨st', he, -, hnext, hcounted, htimes⟩ := mapPiece_spec type room h.counted hr
    refine ⟨true, st', he, .whole hcounted fun k => ?_⟩
    have := h.older
    rw [htimes, h.log, hnext]
    by_cases hk : k = i
    · subst hk
      rw [if_neg (by omega), if_pos rfl, if_pos (.inl rfl)]
    · rw [if_neg hk, Nat.add_zero]
      congr 1
      simp [hk]

/-- A fragment whose `cyanfs_requeue` fails. -/
theorem Splitting.lost {len : ℕ} (h : st.Splitting i n L)
    (hlen : len < (st.bio i).sectors * sectorSize) :
    ∃ st', st.fileSplitBio i .requeue len false = (false, st') ∧ CoreEnd i n L false true st' := by
  refine ⟨st.splitBio i (len / sectorSize), by rw [fileSplitBio, if_pos hlen]; rfl, ?_⟩
  have hle := h.le
  refine .lost (c := st.jobs.next) ⟨hle, Nat.lt_succ_self _⟩ h.older ?_ fun k => ?_
  · have hc := h.splitBio (len / sectorSize)
    rw [Multiset.add_cons, Multiset.cons_swap] at hc
    rwa [Multiset.add_cons]
  · have hold : (st.splitBio i (len / sectorSize)).times k = st.times k := rfl
    rw [hold, h.log, show (st.splitBio i (len / sectorSize)).jobs.next = st.jobs.next + 1 from rfl]
    congr 1
    rw [eq_iff_iff]
    omega

@[simp] theorem coreLoop_zero (i : ℕ) (as : List Answer) (off : ℕ) (st : Blk) :
    coreLoop i as off 0 st = (true, st) := by
  cases as with
  | nil => rfl
  | cons a as => simp only [coreLoop, ↓reduceIte]

@[simp] theorem loses_zero (as : List Answer) (off : ℕ) : loses as off 0 = false := by
  cases as with
  | nil => rfl
  | cons a as => simp only [loses, ↓reduceIte]

theorem coreLoop_cons (i : ℕ) (a : Answer) (as : List Answer) {off len : ℕ} (hlen : len ≠ 0)
    {ok : Bool} (st : Blk) (h : st.coreExtent i a (mapExtentSpace off len) = (ok, st')) :
    coreLoop i (a :: as) off len st = if ok then
      coreLoop i as (off + mapExtentSpace off len) (len - mapExtentSpace off len) st'
      else (false, st') := by
  simp only [coreLoop, if_neg hlen, h]
  cases ok <;> rfl

/-- The answer to one piece does not lose it: it is the last one, or its requeue
succeeds. -/
theorem loses_cons {type : MapType} {room : Bool} (as : List Answer) {off len : ℕ} (hlen : len ≠ 0)
    (h : ¬ mapExtentSpace off len < len ∨ ¬ (type = .requeue ∧ room = false)) :
    loses (.handler type room :: as) off len = if type = .requeue ∧ room = false then false
      else loses as (off + mapExtentSpace off len) (len - mapExtentSpace off len) := by
  simp only [loses, if_neg hlen]
  split
  · rename_i he
    cases he
  · rename_i he
    obtain ⟨rfl, rfl⟩ := Answer.handler.inj he
    rw [if_pos ⟨rfl, rfl⟩]
    exact decide_eq_false (h.resolve_right (not_not.2 ⟨rfl, rfl⟩))
  · rename_i hne he
    obtain ⟨rfl, rfl⟩ := Answer.handler.inj he
    rw [if_neg]
    rintro ⟨rfl, rfl⟩
    exact hne rfl rfl

theorem coreLoop_spec (answers : List Answer) (h : st.Splitting i n L)
    (hpos : 0 < (st.bio i).sectors)
    (hsize : (st.bio i).sector * sectorSize + (st.bio i).sectors * sectorSize ≤ fileMaxSize) :
    ∃ ok st', coreLoop i answers ((st.bio i).sector * sectorSize) ((st.bio i).sectors * sectorSize) st =
        (ok, st') ∧
      CoreEnd i n L ok
        (loses answers ((st.bio i).sector * sectorSize) ((st.bio i).sectors * sectorSize)) st' := by
  induction answers generalizing st with
  | nil =>
      refine ⟨false, st, ?_, .rest h⟩
      simp only [coreLoop, Prod.mk.injEq, decide_eq_false_iff_not, and_true]
      exact (Nat.mul_pos hpos (by norm_num)).ne'
  | cons a as ih =>
      have hne : (st.bio i).sectors * sectorSize ≠ 0 := (Nat.mul_pos hpos (by norm_num)).ne'
      cases a with
      | fail =>
          refine ⟨false, st, coreLoop_cons i .fail as hne st rfl, ?_⟩
          rw [loses, if_neg hne]
          exact .rest h
      | handler type room =>
          obtain ⟨p, hp, hp0, hpm⟩ := mapExtentSpace_sectors hpos hsize
          have hcons : ∀ {ok st'}, st.fileSplitBio i type (p * sectorSize) room = (ok, st') →
              coreLoop i (.handler type room :: as) ((st.bio i).sector * sectorSize)
                ((st.bio i).sectors * sectorSize) st = if ok then
                coreLoop i as ((st.bio i).sector * sectorSize + p * sectorSize)
                  ((st.bio i).sectors * sectorSize - p * sectorSize) st'
                else (false, st') := by
            intro ok st' he
            have hx : st.coreExtent i (.handler type room) (mapExtentSpace
                ((st.bio i).sector * sectorSize) ((st.bio i).sectors * sectorSize)) = (ok, st') := by
              rw [hp]
              exact he
            rw [coreLoop_cons i _ as hne st hx, hp]
          by_cases hlast : p = (st.bio i).sectors
          · -- the core has come to the end of the range
            rw [hlast] at hp hcons
            obtain ⟨ok, st', he, hend⟩ := h.last type room
              (lt_irrefl ((st.bio i).sectors * sectorSize))
            refine ⟨ok, st', ?_, ?_⟩
            · rw [hcons he, Nat.sub_self, coreLoop_zero]
              cases ok <;> rfl
            · rw [loses_cons as hne (.inl (by rw [hp]; exact lt_irrefl _)), hp, Nat.sub_self,
                loses_zero, ite_self]
              exact hend
          · have hlt : p * sectorSize < (st.bio i).sectors * sectorSize :=
              Nat.mul_lt_mul_of_pos_right (lt_of_le_of_ne hpm hlast) (by norm_num)
            by_cases hr : type = .requeue ∧ room = false
            · obtain ⟨rfl, rfl⟩ := hr
              obtain ⟨st', he, hend⟩ := h.lost hlt
              refine ⟨false, st', ?_, ?_⟩
              · rw [hcons he]
                rfl
              · simp only [loses, if_neg hne, hp, decide_eq_true hlt]
                exact hend
            · obtain ⟨st', he, hsplit, hsector, hsectors⟩ :=
                h.inner type room hlt hr
              have hdiv : p * sectorSize / sectorSize = p := Nat.mul_div_cancel p (by norm_num)
              rw [hdiv] at hsector hsectors
              have hoff : (st.bio i).sector * sectorSize + p * sectorSize =
                  (st'.bio i).sector * sectorSize := by
                rw [hsector, Nat.add_mul]
              have hlen : (st.bio i).sectors * sectorSize - p * sectorSize =
                  (st'.bio i).sectors * sectorSize := by
                rw [hsectors, Nat.sub_mul]
              have hpos' : 0 < (st'.bio i).sectors := by
                rw [hsectors]
                exact Nat.sub_pos_of_lt (lt_of_le_of_ne hpm hlast)
              have hsize' : (st'.bio i).sector * sectorSize + (st'.bio i).sectors * sectorSize ≤
                  fileMaxSize := by
                rw [← hoff, ← hlen, Nat.add_assoc, Nat.add_sub_cancel' hlt.le]
                exact hsize
              obtain ⟨ok, st'', hloop, hend⟩ := ih hsplit hpos' hsize'
              refine ⟨ok, st'', ?_, ?_⟩
              · rw [hcons he, hoff, hlen]
                exact hloop
              · rw [loses_cons as hne (.inr hr), if_neg hr, hp, hoff, hlen]
                exact hend

/-- The call loses a fragment of bio `b`: it is mapped at all, its range is inside
the file, and the answers lead to it. -/
def LosesFragment (fSize : ℕ) (b : Bio) (answers : List Answer) : Prop :=
  ¬ (b.flush ∨ b.sectors = 0) ∧ b.sector * sectorSize + b.sectors * sectorSize ≤ fSize ∧
    loses answers (b.sector * sectorSize) (b.sectors * sectorSize) = true

/-- `cyanfs_file_map_bio` has disposed of bio `i` and of each bio split off it, the
bios from `n` on, exactly once. -/
def ExactlyOnce (st : Blk) (i n : ℕ) : Prop :=
  ∀ k, k = i ∨ n ≤ k ∧ k < st.jobs.next → st.times k = 1

/-- A call for bio `i` that started with the bios below `n`: everything is
accounted for and was disposed of once, or, if `lost`, a fragment is held by nobody
and was not disposed of. -/
def Accounted (st : Blk) (i n : ℕ) (L : Multiset ℕ) (lost : Prop) : Prop :=
  ∃ L', st.jobs.Counted (st.device + st.queue + (L' + L)) ∧
    (lost → L' ≠ 0 ∧ ¬ st.ExactlyOnce i n) ∧ (¬ lost → L' = 0 ∧ st.ExactlyOnce i n)

theorem Accounted.of_whole {lost : Prop} (hlost : ¬ lost)
    (hcounted : st.jobs.Counted (st.device + st.queue + L)) (hlog : st.ExactlyOnce i n) :
    st.Accounted i n L lost :=
  ⟨0, by rwa [Multiset.zero_add], fun hl => absurd hl hlost, fun _ => ⟨rfl, hlog⟩⟩

/-- Disposing of `i` ends a call that has disposed of everything else. -/
theorem Splitting.accounted (h : st.Splitting i n L) (type : MapType) (room : Bool) {lost : Prop}
    (hr : ¬ (type = .requeue ∧ room = false)) (hlost : ¬ lost) :
    (st.mapPiece i type room).2.Accounted i n L lost := by
  obtain ⟨st', he, -, hnext, hcounted, htimes⟩ := mapPiece_spec type room h.counted hr
  have hold := h.older
  rw [he]
  refine .of_whole hlost hcounted fun k hk => ?_
  rw [show (true, st').2.jobs.next = st'.jobs.next from rfl, hnext] at hk
  show st'.times k = 1
  rw [htimes, h.log]
  rcases hk with rfl | hk
  · rw [if_neg (by omega), if_pos rfl]
  · rw [if_pos hk, if_neg (by omega)]

/-- The call that ends in an error after a fragment was lost. -/
theorem CoreEnd.accounted_lost {lost : Prop} (h : CoreEnd i n L false true st) (hlost : lost) :
    (st.endBio i).Accounted i n L lost := by
  cases h with
  | @lost _ c hc hi hcounted hlog =>
      refine ⟨{c}, hcounted.finish (Nat.lt_succ_self i), fun _ => ⟨by simp, fun hex => ?_⟩,
        fun hno => absurd hlost hno⟩
      have hzero : (st.endBio i).times c = 0 := by
        have htimes := st.times_append i c .ended
        rwa [hlog, if_neg (by simp), if_neg (by omega)] at htimes
      have hone := hex c (.inr ⟨hc.1, by rw [endBio, Chained.next_finish]; exact hc.2⟩)
      rw [hzero] at hone
      cases hone

/-- **How `cyanfs_file_map_bio` ends.** -/
theorem fileMapBio_spec (st : Blk) (hsize : fSize ≤ fileMaxSize) (status : Bool) (answers : List Answer)
    (h : st.jobs.Counted (i ::ₘ (st.device + st.queue + L))) :
    (st.fileMapBio fSize i status answers).Accounted i st.jobs.next L
      (LosesFragment fSize (st.bio i) answers) := by
  have hi : i < st.jobs.next := h.bound i (Multiset.mem_cons_self i _)
  have hstart : Splitting { st with log := [] } i st.jobs.next L := by
    refine ⟨h, hi, le_rfl, fun k => ?_⟩
    rw [if_neg fun hk => absurd hk.2 (Nat.not_lt.2 hk.1)]
    rfl
  by_cases htrivial : (st.bio i).flush ∨ (st.bio i).sectors = 0
  · have hno : ¬ LosesFragment fSize (st.bio i) answers := fun hl => hl.1 htrivial
    have hcase : st.fileMapBio fSize i status answers = if status then
        ({ st with log := [] }.mapPiece i .submit true).2
        else ({ st with log := [] }.mapPiece i .nop true).2 := by
      simp only [fileMapBio, if_pos htrivial]
      rfl
    rw [hcase]
    split_ifs
    · exact hstart.accounted .submit true (by simp) hno
    · exact hstart.accounted .nop true (by simp) hno
  · have hpos : 0 < (st.bio i).sectors := Nat.pos_of_ne_zero fun h0 => htrivial (.inr h0)
    by_cases hrange : (st.bio i).sector * sectorSize + (st.bio i).sectors * sectorSize ≤ fSize
    · obtain ⟨ok, st', he, hcore⟩ := coreLoop_spec answers hstart hpos (hrange.trans hsize)
      have hloses : LosesFragment fSize (st.bio i) answers ↔ loses answers
          ((st.bio i).sector * sectorSize) ((st.bio i).sectors * sectorSize) = true :=
        ⟨fun hl => hl.2.2, fun hl => ⟨htrivial, hrange, hl⟩⟩
      have hcall : coreCall { st with log := [] } fSize i answers ((st.bio i).sector * sectorSize)
          ((st.bio i).sectors * sectorSize) = (ok, st') := by
        rw [coreCall, if_neg]
        · exact he
        · rintro (h0 | h0 | h0)
          · exact (Nat.mul_pos hpos (by norm_num)).ne' h0
          · omega
          · omega
      have hmap : st.fileMapBio fSize i status answers = if ok then st' else st'.endBio i := by
        simp only [fileMapBio, if_neg htrivial, hcall]
        cases ok <;> rfl
      rw [hmap]
      change CoreEnd i _ L ok (loses answers ((st.bio i).sector * sectorSize)
        ((st.bio i).sectors * sectorSize)) st' at hcore
      cases hl : loses answers ((st.bio i).sector * sectorSize) ((st.bio i).sectors * sectorSize) with
      | false =>
          rw [hl] at hcore
          have hno : ¬ LosesFragment fSize (st.bio i) answers := by
            rw [hloses, hl]
            simp
          cases hcore with
          | whole hcounted hlog =>
              have hex : st'.ExactlyOnce i st.jobs.next := fun k hk => by rw [hlog k, if_pos hk]
              exact .of_whole hno hcounted hex
          | rest h₁ => exact h₁.accounted .nop true (by simp) hno
      | true =>
          rw [hl] at hcore
          cases ok with
          | false => exact hcore.accounted_lost (hloses.2 hl)
          | true => cases hcore
    · have hno : ¬ LosesFragment fSize (st.bio i) answers := fun hl => hrange hl.2.1
      have hcall : coreCall { st with log := [] } fSize i answers ((st.bio i).sector * sectorSize)
          ((st.bio i).sectors * sectorSize) = (false, { st with log := [] }) := by
        rw [coreCall, if_pos]
        omega
      have hmap : st.fileMapBio fSize i status answers = endBio { st with log := [] } i := by
        simp only [fileMapBio, if_neg htrivial, hcall]
      rw [hmap]
      exact hstart.accounted .nop true (by simp) hno

/-! ### The life of a request -/

/-- The event is a call of `cyanfs_file_map_bio` with a failing `cyanfs_requeue`
for a piece of its bio that is not the last. -/
def Event.Loses (fSize : ℕ) (st : Blk) : Event → Prop
  | .map i _ answers => LosesFragment fSize (st.bio i) answers
  | .complete _ => False

/-- A call of `cyanfs_file_map_bio` has disposed of the bio it was given and of the
fragments it has split off exactly once. -/
def Event.Exact (st st' : Blk) : Event → Prop
  | .map i _ _ => st'.ExactlyOnce i st.jobs.next
  | .complete _ => True

/-- `P` holds of every event of a run, in the state before it and the one after. -/
def Along (P : Blk → Event → Blk → Prop) (fSize : ℕ) : Blk → List Event → Prop
  | _, [] => True
  | st, e :: es =>
      match st.step fSize e with
      | none => True
      | some st' => P st e st' ∧ Along P fSize st' es

/-- Every call along a run is exact. -/
def ExactlyOnceAlong : ℕ → Blk → List Event → Prop := Along fun st e st' => e.Exact st st'

/-- No call along a run loses a fragment. -/
def SparedAlong (fSize : ℕ) : Blk → List Event → Prop :=
  Along (fun st e _ => ¬ e.Loses fSize st) fSize

/-- One event keeps the account; only a call that loses a fragment adds to what
nobody holds. -/
theorem step_counted (hsize : fSize ≤ fileMaxSize) {e : Event}
    (h : st.jobs.Counted (st.device + st.queue + L)) (he : st.step fSize e = some st') :
    ∃ L', st'.jobs.Counted (st'.device + st'.queue + (L' + L)) ∧
      (e.Loses fSize st → L' ≠ 0 ∧ ¬ e.Exact st st') ∧
      (¬ e.Loses fSize st → L' = 0 ∧ e.Exact st st') := by
  cases e with
  | map i status answers =>
      simp only [step, Option.ite_none_right_eq_some, Option.some.injEq] at he
      obtain ⟨hi, rfl⟩ := he
      have hc : Chained.Counted st.jobs (i ::ₘ (st.device + st.queue.erase i + L)) := by
        rwa [← Multiset.cons_add, ← Multiset.add_cons, Multiset.cons_erase hi]
      let st₀ : Blk := { st with queue := st.queue.erase i }
      exact st₀.fileMapBio_spec hsize status answers hc
  | complete i =>
      simp only [step, Option.ite_none_right_eq_some, Option.some.injEq] at he
      obtain ⟨hi, rfl⟩ := he
      refine ⟨0, ?_, fun hl => hl.elim, fun _ => ⟨rfl, trivial⟩⟩
      rw [Multiset.zero_add]
      refine Chained.Counted.finish ?_ (Nat.lt_succ_self i)
      rwa [← Multiset.cons_add, ← Multiset.cons_add, Multiset.cons_erase hi]

/-- What a run keeps. -/
theorem run_counted (hsize : fSize ≤ fileMaxSize) (es : List Event)
    (h : st.jobs.Counted (st.device + st.queue + L)) (hr : st.run fSize es = some st') :
    ∃ L', st'.jobs.Counted (st'.device + st'.queue + (L' + L)) ∧
      (SparedAlong fSize st es → L' = 0 ∧ ExactlyOnceAlong fSize st es) ∧
      (¬ SparedAlong fSize st es → L' ≠ 0 ∧ ¬ ExactlyOnceAlong fSize st es) := by
  induction es generalizing st L with
  | nil =>
      obtain rfl := Option.some.inj hr
      exact ⟨0, by rwa [Multiset.zero_add], fun _ => ⟨rfl, trivial⟩, fun hn => absurd trivial hn⟩
  | cons e es ih =>
      obtain ⟨st₁, he, hr⟩ := Option.bind_eq_some_iff.1 hr
      obtain ⟨L₁, hc₁, hloses, hkeeps⟩ := step_counted hsize h he
      obtain ⟨L₂, hc₂, hspared, hlost⟩ := ih hc₁ hr
      refine ⟨L₂ + L₁, by rwa [Multiset.add_assoc L₂], ?_⟩
      unfold SparedAlong ExactlyOnceAlong at hspared hlost ⊢
      simp only [Along, he]
      by_cases hl : e.Loses fSize st
      · obtain ⟨hne, hnot⟩ := hloses hl
        refine ⟨fun hs => absurd hl hs.1, fun _ => ⟨fun h0 => ?_, fun hx => hnot hx.1⟩⟩
        obtain ⟨c, hc⟩ := Multiset.exists_mem_of_ne_zero hne
        have hmem : c ∈ L₂ + L₁ := Multiset.mem_add.2 (.inr hc)
        rw [h0] at hmem
        exact absurd hmem (Multiset.notMem_zero c)
      · obtain ⟨rfl, hex⟩ := hkeeps hl
        rw [Multiset.add_zero]
        refine ⟨fun hs => ⟨(hspared hs.2).1, hex, (hspared hs.2).2⟩, fun hs => ?_⟩
        have hrest := hlost fun h' => hs ⟨hl, h'⟩
        exact ⟨hrest.1, fun hx => hrest.2 hx.2⟩

/-- **Every fragment once, exactly when none is lost.**  In every run of a request,
from its first `cyanfs_file_map_bio` on: each call disposes of its fragments exactly
once, and the request has completed once when no bio is left with the device or in
the queue, if and only if no call has a failing `cyanfs_requeue` for a piece that
is not the last of its bio.  The request never completes twice, and after such a
call it never completes at all. -/
theorem fragments_once_iff {b : Bio} {es : List Event} (hsize : fSize ≤ fileMaxSize)
    (hr : (start b).run fSize es = some st) :
    ((ExactlyOnceAlong fSize (start b) es ∧ (st.device = 0 → st.queue = 0 → st.jobs.done = 1)) ↔
      SparedAlong fSize (start b) es) ∧
    st.jobs.done ≤ 1 ∧ (¬ SparedAlong fSize (start b) es → st.jobs.done = 0) := by
  have hstart : (start b).jobs.Counted ((start b).device + (start b).queue + 0) := by
    rw [Multiset.add_zero]
    exact Chained.counted_root
  obtain ⟨L, hc, hspared, hlost⟩ := run_counted hsize es hstart hr
  rw [Multiset.add_zero] at hc
  refine ⟨⟨fun h => ?_, fun h => ⟨(hspared h).2, fun hd hq => ?_⟩⟩, hc.done_le, fun h => ?_⟩
  · by_contra hn
    exact (hlost hn).2 h.1
  · rw [hd, hq, (hspared h).1] at hc
    exact hc.done_eq_one
  · obtain ⟨c, hcL⟩ := Multiset.exists_mem_of_ne_zero (hlost h).1
    exact hc.done_eq_zero (Multiset.mem_add.2 (.inr hcL))

/-- A read of two extents, both submitted and then ended by the device. -/
theorem fragments_once_submitted :
    let es : List Event := [.map 0 true [.handler .submit true, .handler .submit true], .complete 1,
      .complete 0]
    ∃ st, (start ⟨0, 4096, false⟩).run (2 * extentSize) es = some st ∧
      SparedAlong (2 * extentSize) (start ⟨0, 4096, false⟩) es ∧
      ExactlyOnceAlong (2 * extentSize) (start ⟨0, 4096, false⟩) es ∧ st.jobs.done = 1 := by
  intro es
  have hspared : SparedAlong (2 * extentSize) (start ⟨0, 4096, false⟩) es :=
    ⟨fun hl => absurd hl.2.2 (by decide), fun hl => hl, fun hl => hl, trivial⟩
  refine ⟨_, rfl, hspared, ?_⟩
  have hsize : 2 * extentSize ≤ fileMaxSize := by decide
  have h := (fragments_once_iff hsize (rfl : (start ⟨0, 4096, false⟩).run _ es = some _)).1.2 hspared
  exact ⟨h.1, h.2 rfl rfl⟩

/-- The first of two extents is pending and `cyanfs_requeue` finds no memory: the
driver ends the bio, nothing is left with the device or in the queue, and the
request has not completed. -/
theorem fragment_lost :
    let es : List Event := [.map 0 true [.handler .requeue false]]
    ∃ st, (start ⟨0, 4096, false⟩).run (2 * extentSize) es = some st ∧
      ¬ ExactlyOnceAlong (2 * extentSize) (start ⟨0, 4096, false⟩) es ∧
      st.log = [(0, .ended)] ∧ st.device = 0 ∧ st.queue = 0 ∧ st.jobs.done = 0 := by
  refine ⟨_, rfl, fun h => ?_, rfl, rfl, rfl, rfl⟩
  have hone := h.1 1 (.inr ⟨le_rfl, by decide⟩)
  exact absurd hone (by decide)

end Blk

end Cyanfs
