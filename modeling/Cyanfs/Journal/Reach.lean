/-
# What a super header reaches

A scan is deterministic: of two traces from one place one goes on where the other ends
(`Trace.total`).  So a chain that passes the beginning of an extent is cut there in one way
(`Via`), and this is what a compaction relies on: it replaces the part of the chain
before `end_id` and leaves the rest.

The header it writes has the next version and goes to the slot of that version's parity.
Whatever the two slots held, `cyanfs_super_parse` selects it from then on
(`superParse_next`).
-/

import Cyanfs.Journal.Agreement

namespace Cyanfs

open Lib

/-! ### Two traces from one place -/

section Trace

variable {d d' : Buf} {seed : UInt32} {p q q' : Place} {es es' : List Entry} {js js' : List ℕ}

/-- **Of two traces from one place one goes on where the other ends.** -/
theorem Trace.total (h : Trace d seed p es js q) (h' : Trace d seed p es' js' q') :
    (∃ fs ks, es' = es ++ fs ∧ js' = js ++ ks ∧ Trace d seed q fs ks q') ∨
      ∃ fs ks, es = es' ++ fs ∧ js = js' ++ ks ∧ Trace d seed q' fs ks q := by
  induction h generalizing es' js' q' with
  | refl p => exact .inl ⟨es', js', rfl, rfl, h'⟩
  | @step p q size es es₁ next js hs ht ih =>
      cases h' with
      | refl => exact .inr ⟨_, _, rfl, rfl, .step hs ht⟩
      | step hs' ht' =>
          obtain ⟨rfl, rfl, rfl⟩ := Scan.record.inj (hs.symm.trans hs')
          rcases ih ht' with ⟨fs, ks, rfl, rfl, h⟩ | ⟨fs, ks, rfl, rfl, h⟩
          · exact .inl ⟨fs, ks, (List.append_assoc ..).symm, (List.append_assoc ..).symm, h⟩
          · exact .inr ⟨fs, ks, (List.append_assoc ..).symm, (List.append_assoc ..).symm, h⟩

/-- A trace that stays in its extent and ends at its beginning is empty. -/
theorem Trace.eq_of_zero (h : Trace d seed p es [] q) (hq : q.extentOff = 0) : q = p := by
  generalize hjs : ([] : List ℕ) = js at h
  cases h with
  | refl p => rfl
  | @step _ _ size es₀ es₁ next js₁ hs ht =>
      cases next with
      | some b => simp at hjs
      | none =>
          obtain rfl : js₁ = [] := by simpa using hjs.symm
          have hpos := (scanned_of_scanAt hs).pos
          have hle := ht.same_extent.2
          simp only [Place.behind, journalBlockSize] at hle hpos
          omega

/-- Nothing is said on a way that comes back to its place in the same extent. -/
theorem Trace.eq_nil_of_loop (h : Trace d seed p es [] p) : es = [] := by
  generalize hjs : ([] : List ℕ) = js at h
  generalize hq : p = q at h
  cases h with
  | refl => rfl
  | @step _ _ size es₀ es₁ next js₁ hs ht =>
      cases next with
      | some b => simp at hjs
      | none =>
          obtain rfl : js₁ = [] := by simpa using hjs.symm
          have hpos := (scanned_of_scanAt hs).pos
          have hle := ht.same_extent.2
          simp only [Place.behind, journalBlockSize, ← hq] at hle hpos
          omega

/-! ### A place in a chain -/

/-- A chain leads from `p` to `q` over the extents `bs` and holds the entries `es`. -/
def Tells (d : Buf) (seed : UInt32) (p : Place) (bs : List ℕ) (es : List Entry) (q : Place) : Prop :=
  ∃ js, p.extentId :: js = bs ∧ Trace d seed p es js q

/-- A chain leads from `p` to `q` over the extents `bs`. -/
def Reaches (d : Buf) (seed : UInt32) (p : Place) (bs : List ℕ) (q : Place) : Prop :=
  ∃ es, Tells d seed p bs es q

variable {bs pre post : List ℕ} {m : Place} {req : WriteReq} {size : ℕ} {next : Option ℕ}
  {fs : List Entry}

theorem Tells.refl (p : Place) : Tells d seed p [p.extentId] [] p := ⟨[], rfl, .refl p⟩

theorem Tells.reaches (h : Tells d seed p bs es q) : Reaches d seed p bs q := ⟨es, h⟩

theorem Tells.congr (h : Tells d seed p bs es q) (hp : p.Valid)
    (hd : ∀ a, Footprint bs q a → d' a = d a) : Tells d' seed p bs es q := by
  obtain ⟨js, rfl, ht⟩ := h
  exact ⟨js, rfl, ht.congr hp hd⟩

theorem Tells.append (h : Tells d seed p bs es m) (ht : Trace d seed m fs js q) :
    Tells d seed p (bs ++ js) (es ++ fs) q := by
  obtain ⟨ks, rfl, h⟩ := h
  exact ⟨ks ++ js, rfl, h.trans ht⟩

/-- The chain goes on with a record that is written at its end. -/
theorem Tells.emit (h : Tells d seed p bs fs q) (hp : p.Valid) (hnodup : bs.Nodup)
    (hem : Emitted seed q req size es next) :
    Tells (d.patch req.off req.len req.data) seed p (bs ++ next.toList) (fs ++ es)
      (q.behind size es.length next) := by
  obtain ⟨js, rfl, ht⟩ := h
  exact ⟨_, rfl, hem.trace ht hp hnodup⟩

/-- What a chain holds up to a place is there once. -/
theorem Tells.unique (h : Tells d seed p bs es q) (h' : Tells d seed p bs fs q) : es = fs := by
  obtain ⟨js, rfl, ht⟩ := h
  obtain ⟨ks, hks, ht'⟩ := h'
  obtain rfl := (List.cons.inj hks).2
  have key : ∀ {gs : List Entry} {ls : List ℕ}, Trace d seed q gs ls q → ks = ks ++ ls → gs = [] := by
    intro gs ls hg hl
    obtain rfl : ls = [] := by simpa using hl.symm
    exact hg.eq_nil_of_loop
  rcases ht.total ht' with ⟨gs, ls, rfl, hl, hg⟩ | ⟨gs, ls, rfl, hl, hg⟩
  · rw [key hg hl, List.append_nil]
  · rw [key hg hl, List.append_nil]

theorem Reaches.getLast? (h : Reaches d seed p bs q) : bs.getLast? = some q.extentId := by
  obtain ⟨es, js, rfl, ht⟩ := h
  exact ht.getLast?

theorem Reaches.mem_last (h : Reaches d seed p bs q) : q.extentId ∈ bs :=
  List.mem_of_getLast? h.getLast?

theorem Reaches.valid (h : Reaches d seed p bs q) (hp : p.Valid) : q.Valid := by
  obtain ⟨es, js, -, ht⟩ := h
  exact ht.valid hp

theorem Reaches.congr (h : Reaches d seed p bs q) (hp : p.Valid)
    (hd : ∀ a, Footprint bs q a → d' a = d a) : Reaches d' seed p bs q := by
  obtain ⟨es, h⟩ := h
  exact (h.congr hp hd).reaches

theorem Reaches.append (h : Reaches d seed p bs m) (ht : Trace d seed m es js q) :
    Reaches d seed p (bs ++ js) q := by
  obtain ⟨fs, h⟩ := h
  exact (h.append ht).reaches

/-- The chain goes on with a record that is written at its end. -/
theorem Reaches.emit (h : Reaches d seed p bs q) (hp : p.Valid) (hnodup : bs.Nodup)
    (hem : Emitted seed q req size es next) :
    Reaches (d.patch req.off req.len req.data) seed p (bs ++ next.toList)
      (q.behind size es.length next) := by
  obtain ⟨fs, h⟩ := h
  exact (h.emit hp hnodup hem).reaches

/-- The chain from `p` to `q` passes the place `m`; `pre` are its extents up to there and
`post` those behind it. -/
structure Via (d : Buf) (seed : UInt32) (p m q : Place) (pre post : List ℕ) : Prop where
  front : Reaches d seed p pre m
  back : ∃ es, Trace d seed m es post q

namespace Via

theorem whole (h : Via d seed p m q pre post) : Reaches d seed p (pre ++ post) q := by
  obtain ⟨es, ht⟩ := h.back
  exact h.front.append ht

/-- Up to `m` the chain depends on nothing else than the whole does. -/
theorem footprint_front {a : ℕ} (h : Via d seed p m q pre post) (hp : p.Valid)
    (ha : Footprint pre m a) : Footprint (pre ++ post) q a := by
  obtain ⟨es, ht⟩ := h.back
  have hm := h.front.valid hp
  rcases post with _ | ⟨b, bs⟩
  · rw [List.append_nil]
    obtain ⟨hid, hle⟩ := ht.same_extent
    refine ha.imp_right fun ⟨hin, hlt⟩ => ⟨hid ▸ hin, ?_⟩
    rw [hm.addr_eq] at hlt
    rw [(ht.valid hm).addr_eq, hid]
    omega
  · rw [Footprint, List.dropLast_append_cons]
    rcases ha with ⟨e, he, hin⟩ | ⟨hin, -⟩
    · exact .inl ⟨e, List.mem_append_left _ (List.mem_of_mem_dropLast he), hin⟩
    · exact .inl ⟨_, List.mem_append_left _ h.front.mem_last, hin⟩

theorem footprint_back {a : ℕ} (h : Via d seed p m q pre post)
    (ha : Footprint (m.extentId :: post) q a) : Footprint (pre ++ post) q a := by
  refine ha.imp_left fun ⟨e, he, hin⟩ => ⟨e, ?_, hin⟩
  have hsplit := List.dropLast_append_getLast? _ h.front.getLast?
  rw [← hsplit, List.append_assoc, List.singleton_append, List.dropLast_append_cons]
  exact List.mem_append_right _ he

theorem congr (h : Via d seed p m q pre post) (hp : p.Valid)
    (hd : ∀ a, Footprint (pre ++ post) q a → d' a = d a) : Via d' seed p m q pre post := by
  obtain ⟨es, ht⟩ := h.back
  exact ⟨h.front.congr hp fun a ha => hd a (h.footprint_front hp ha), es,
    ht.congr (h.front.valid hp) fun a ha => hd a (h.footprint_back ha)⟩

/-- The chain goes on behind its end. -/
theorem emit (h : Via d seed p m q pre post) (hp : p.Valid) (hnodup : (pre ++ post).Nodup)
    (hem : Emitted seed q req size es next) :
    Via (d.patch req.off req.len req.data) seed p m (q.behind size es.length next) pre
      (post ++ next.toList) := by
  have hkeep := h.congr hp fun a ha =>
    hem.patch_of_footprint (d := d) (h.whole.valid hp) hnodup h.whole.getLast? ha
  obtain ⟨fs, ht⟩ := hkeep.back
  have hnew := Trace.step (hem.scan_patch d) (.refl (q.behind size es.length next))
  rw [List.append_nil, List.append_nil] at hnew
  exact ⟨hkeep.front, _, ht.trans hnew⟩

end Via

/-- A place that is reached lies on the way to the end, or behind it. -/
theorem Reaches.via (h : Reaches d seed p bs m) (h' : Reaches d seed p pre q) :
    (∃ ks, pre = bs ++ ks ∧ Via d seed p m q bs ks) ∨
      ∃ ks, bs = pre ++ ks ∧ Via d seed p q m pre ks := by
  obtain ⟨es, js, rfl, ht⟩ := id h
  obtain ⟨es', js', rfl, ht'⟩ := id h'
  rcases ht.total ht' with ⟨fs, ks, -, rfl, hk⟩ | ⟨fs, ks, -, rfl, hk⟩
  · exact .inl ⟨ks, rfl, h, fs, hk⟩
  · exact .inr ⟨ks, rfl, h', fs, hk⟩

/-- The beginning of an extent of the chain: if the extent is met for the first time, it lies
on the way. -/
theorem Reaches.via_of_mem {e s : ℕ} (h : Reaches d seed p (pre ++ [e]) ⟨e, 0, s⟩)
    (h' : Reaches d seed p bs q) (hmem : e ∈ bs) (hnew : e ∉ pre) :
    ∃ post, bs = pre ++ e :: post ∧ Via d seed p ⟨e, 0, s⟩ q (pre ++ [e]) post := by
  rcases h.via h' with ⟨ks, rfl, hv⟩ | ⟨ks, hks, hv⟩
  · exact ⟨ks, by simp, hv⟩
  · -- the end of the chain is in this extent, so it is its beginning
    obtain ⟨x, y, hxy⟩ := List.append_of_mem hmem
    rw [hxy, List.append_assoc, List.cons_append] at hks
    have hlen : pre = x ∧ y ++ ks = [] := by
      obtain ⟨h₁, -, h₂⟩ := (List.append_cons_inj_of_notMem hnew List.not_mem_nil).1 hks
      exact ⟨h₁, h₂.symm⟩
    obtain ⟨rfl, hnil⟩ := hlen
    obtain ⟨rfl, rfl⟩ := List.append_eq_nil_iff.1 hnil
    obtain ⟨fs, hback⟩ := hv.back
    obtain rfl := hback.eq_of_zero rfl
    exact ⟨[], hxy, h, [], .refl _⟩

end Trace

/-! ### The order of a chain -/

/-- In the chain `a` comes before `b`, or is `b`. -/
def Upto (bs : List ℕ) (a b : ℕ) : Prop := ∃ pre post, bs = pre ++ a :: post ∧ b ∈ a :: post

section Upto

variable {bs : List ℕ} {a b c : ℕ}

theorem Upto.refl (h : a ∈ bs) : Upto bs a a := by
  obtain ⟨pre, post, rfl⟩ := List.append_of_mem h
  exact ⟨pre, post, rfl, List.mem_cons_self⟩

theorem Upto.append (h : Upto bs a b) (cs : List ℕ) : Upto (bs ++ cs) a b := by
  obtain ⟨pre, post, rfl, hb⟩ := h
  exact ⟨pre, post ++ cs, by simp, List.mem_cons.2 ((List.mem_cons.1 hb).imp_right
    (List.mem_append_left _))⟩

theorem Upto.mem_left (h : Upto bs a b) : a ∈ bs := by
  obtain ⟨pre, post, rfl, -⟩ := h
  simp

theorem Upto.mem_right (h : Upto bs a b) : b ∈ bs := by
  obtain ⟨pre, post, rfl, hb⟩ := h
  exact List.mem_append_right _ hb

/-- An extent stands at one place of the chain only. -/
theorem split_unique {x y x' y' : List ℕ} (h : (x ++ a :: y).Nodup)
    (heq : x ++ a :: y = x' ++ a :: y') : x = x' ∧ y = y' := by
  obtain ⟨-, hcons, hdisj⟩ := List.nodup_append.1 h
  have hx : a ∉ x := fun hm => hdisj a hm a List.mem_cons_self rfl
  have hy : a ∉ y := (List.nodup_cons.1 hcons).1
  obtain ⟨h₁, -, h₂⟩ := (List.append_cons_inj_of_notMem hx hy).1 heq
  exact ⟨h₁, h₂⟩

theorem Upto.trans (hnodup : bs.Nodup) (h : Upto bs a b) (h' : Upto bs b c) : Upto bs a c := by
  obtain ⟨pre, post, rfl, hb⟩ := h
  obtain ⟨pre', post', heq, hc⟩ := h'
  refine ⟨pre, post, rfl, ?_⟩
  obtain ⟨x, y, hxy⟩ := List.append_of_mem hb
  rw [hxy, ← List.append_assoc] at hnodup heq
  rw [hxy, (split_unique hnodup heq).2]
  exact List.mem_append_right _ hc

/-- The last extent of the chain comes behind all. -/
theorem Upto.last (h : a ∈ bs) (hb : bs.getLast? = some b) : Upto bs a b := by
  obtain ⟨pre, post, rfl⟩ := List.append_of_mem h
  refine ⟨pre, post, rfl, ?_⟩
  rw [List.getLast?_append_cons] at hb
  exact List.mem_of_getLast? hb

theorem Upto.mem_tail {pre post : List ℕ} (hnodup : (pre ++ a :: post).Nodup)
    (h : Upto (pre ++ a :: post) a b) : b ∈ a :: post := by
  obtain ⟨x, y, heq, hb⟩ := h
  rwa [(split_unique hnodup heq).2]

/-- The order of a chain whose front is replaced. -/
theorem Upto.mem_of_append {cs ds : List ℕ} (hnodup : (cs ++ ds).Nodup) (h : Upto (cs ++ ds) a b)
    (hb : b ∈ cs) : a ∈ cs := by
  obtain ⟨pre, post, heq, hmem⟩ := h
  rcases List.append_eq_append_iff.1 heq with ⟨xs, rfl, -⟩ | ⟨xs, rfl, hxs⟩
  · rw [heq] at hnodup
    exact absurd rfl ((List.nodup_append.1 hnodup).2.2 b (List.mem_append_left _ hb) b hmem)
  · cases xs with
    | nil =>
        rw [heq] at hnodup
        rw [List.append_nil] at hb
        exact absurd rfl ((List.nodup_append.1 hnodup).2.2 b hb b hmem)
    | cons x xs =>
        obtain ⟨rfl, -⟩ := List.cons.inj hxs
        simp

theorem Upto.replace {pre rest : List ℕ} (hnodup : (pre ++ rest).Nodup) (h : Upto (pre ++ rest) a b)
    (ha : a ∈ rest) (cs : List ℕ) : Upto (cs ++ rest) a b := by
  obtain ⟨x, y, rfl⟩ := List.append_of_mem ha
  obtain ⟨x', y', heq, hb⟩ := h
  rw [← List.append_assoc] at hnodup heq
  rw [← (split_unique hnodup heq).2] at hb
  exact ⟨cs ++ x, y, by simp, hb⟩

end Upto

/-! ### The super block -/

/-- What `cyanfs_super_parse` selects. -/
theorem superParse_eq_some {g : Buf} {h : SuperHeader} : superParse g = some h ↔
    h.magic = superMagic ∧ h.journalId < extentIdInvalid ∧
    ((slotValid g 0 ∧ decodeSuperHeader g 0 = h ∧ (slotValid g superHeaderSize →
        (decodeSuperHeader g superHeaderSize).version ≤ h.version)) ∨
      (slotValid g superHeaderSize ∧ decodeSuperHeader g superHeaderSize = h ∧ (slotValid g 0 →
        (decodeSuperHeader g 0).version < h.version))) := by
  unfold superParse
  simp only
  split_ifs with hboth hlt h₁ h₂
  all_goals try simp only [Option.ite_none_left_eq_some, not_or, not_not, not_le, Option.some.injEq]
  · constructor
    · rintro ⟨⟨hm, hi⟩, rfl⟩
      exact ⟨hm, hi, .inr ⟨hboth.2, rfl, fun _ => hlt⟩⟩
    · rintro ⟨hm, hi, ⟨-, rfl, hle⟩ | ⟨-, rfl, -⟩⟩
      · exact absurd hlt (hle hboth.2).not_gt
      · exact ⟨⟨hm, hi⟩, rfl⟩
  · constructor
    · rintro ⟨⟨hm, hi⟩, rfl⟩
      exact ⟨hm, hi, .inl ⟨hboth.1, rfl, fun _ => not_lt.1 hlt⟩⟩
    · rintro ⟨hm, hi, ⟨-, rfl, -⟩ | ⟨-, rfl, hlt'⟩⟩
      · exact ⟨⟨hm, hi⟩, rfl⟩
      · exact absurd (hlt' hboth.1) hlt
  · have h₂ : ¬ slotValid g superHeaderSize := fun h₂ => hboth ⟨h₁, h₂⟩
    constructor
    · rintro ⟨⟨hm, hi⟩, rfl⟩
      exact ⟨hm, hi, .inl ⟨h₁, rfl, fun h => absurd h h₂⟩⟩
    · rintro ⟨hm, hi, ⟨-, rfl, -⟩ | ⟨h, -⟩⟩
      · exact ⟨⟨hm, hi⟩, rfl⟩
      · exact absurd h h₂
  · constructor
    · rintro ⟨⟨hm, hi⟩, rfl⟩
      exact ⟨hm, hi, .inr ⟨h₂, rfl, fun h => absurd h h₁⟩⟩
    · rintro ⟨hm, hi, ⟨h, -⟩ | ⟨-, rfl, -⟩⟩
      · exact absurd h h₁
      · exact ⟨⟨hm, hi⟩, rfl⟩
  · constructor
    · simp
    · rintro ⟨-, -, ⟨h, -⟩ | ⟨h, -⟩⟩
      · exact absurd h h₁
      · exact absurd h h₂

theorem version_le {g : Buf} {h : SuperHeader} (hp : superParse g = some h) : h.version ≤ u64Max := by
  have hslot : ∀ p, (decodeSuperHeader g p).version ≤ u64Max := fun p => by
    have := getLe_lt g (p + 24) 8
    simp only [decodeSuperHeader, u64Max]
    omega
  obtain ⟨-, -, ⟨-, rfl, -⟩ | ⟨-, rfl, -⟩⟩ := superParse_eq_some.1 hp
  · exact hslot _
  · exact hslot _

/-- The header that a compaction writes over the slot of its parity. -/
structure SuperHeader.Follows (h' h : SuperHeader) : Prop where
  magic : h'.magic = h.magic
  uuid : h'.uuid = h.uuid
  version : h'.version = h.version + 1
  max : h'.version ≤ u64Max
  journalId : h'.journalId < extentIdInvalid
  journalSeq : h'.journalSeq ≤ u64Max

theorem SuperHeader.Follows.fits {h h' : SuperHeader} (hf : h'.Follows h)
    (hmagic : h.magic = superMagic) : h'.Fits := by
  have h₁ := hf.max
  have h₂ := hf.journalId
  have h₃ := hf.journalSeq
  simp only [u64Max, extentIdInvalid] at h₁ h₂ h₃
  refine ⟨?_, by omega, by omega, by omega⟩
  rw [hf.magic, hmagic]
  decide

/-- **The next header is selected** once it is written, whatever the other slot holds. -/
theorem superParse_next {g g' page : Buf} {h h' : SuperHeader} (hp : superParse g = some h)
    (hf : h'.Follows h)
    (hs : g'.slice (h'.version % 2 * superHeaderSize) superHeaderSize = slotBytes h' page)
    (ho : ∀ a < superBlockSize, a < h'.version % 2 * superHeaderSize ∨
      h'.version % 2 * superHeaderSize + superHeaderSize ≤ a → g' a = g a) :
    superParse g' = some h' := by
  obtain ⟨hmagic, hid, hsel⟩ := superParse_eq_some.1 hp
  obtain ⟨hvalid, hdec⟩ := slot_of_slice (hf.fits hmagic) hs
  have hver := hf.version
  refine superParse_eq_some.2 ⟨hf.magic.trans hmagic, hf.journalId, ?_⟩
  rcases Nat.mod_two_eq_zero_or_one h'.version with hmod | hmod
  · rw [hmod, Nat.zero_mul] at hvalid hdec
    refine .inl ⟨hvalid, hdec, fun hv => ?_⟩
    have hcongr : ∀ i < superHeaderSize, g' (superHeaderSize + i) = g (superHeaderSize + i) := by
      intro i hi
      refine ho _ ?_ (.inr ?_)
      · simp only [superBlockSize, superHeaderSize] at *
        omega
      · rw [hmod]
        omega
    rw [decodeSuperHeader_congr hcongr]
    have hv' := (slotValid_congr hcongr).1 hv
    rcases hsel with ⟨-, -, hle⟩ | ⟨-, heq, -⟩
    · have := hle hv'
      omega
    · rw [heq]
      omega
  · rw [hmod, Nat.one_mul] at hvalid hdec
    refine .inr ⟨hvalid, hdec, fun hv => ?_⟩
    have hcongr : ∀ i < superHeaderSize, g' (0 + i) = g (0 + i) := by
      intro i hi
      refine ho _ ?_ (.inl ?_)
      · simp only [superBlockSize, superHeaderSize] at *
        omega
      · rw [hmod]
        omega
    rw [decodeSuperHeader_congr hcongr]
    have hv' := (slotValid_congr hcongr).1 hv
    rcases hsel with ⟨-, heq, -⟩ | ⟨-, -, hlt⟩
    · rw [heq]
      omega
    · have := hlt hv'
      omega

/-- The place where the chain of a header begins. -/
def SuperHeader.place (h : SuperHeader) : Place := ⟨h.journalId, 0, h.journalSeq⟩

theorem SuperHeader.valid_place (h : SuperHeader) : h.place.Valid := Place.valid_zero _ _

/-- The header that a loader goes on with is the one that the super block selects. -/
theorem Loader.header_of_parserHeader {d : Buf} {l l' : Loader} {X Y : Super} {m : Bool}
    (h : l.parserHeader X m d = .readPage l' Y ∨ l.parserHeader X m d = .finish l' Y) :
    superParse d = some l'.header := by
  have hpage : superParse (X.cursor.read d 0 superBlockSize).page = superParse d := by
    refine superParse_congr fun a ha => ?_
    have hread : (X.cursor.page.patch 0 superBlockSize fun i => d (0 + i)) a = d (0 + (a - 0)) :=
      Buf.patch_of_lt (Nat.zero_le a) (by omega)
    rwa [Nat.zero_add, Nat.sub_zero] at hread
  unfold Loader.parserHeader at h
  simp only [hpage] at h
  split at h
  · simp at h
  rename_i h' hparse
  rw [hparse]
  split_ifs at h with hend hprep
  · unfold Loader.end at h
    split at h
    · rcases h with h | h
      · cases h
      · obtain ⟨rfl, -⟩ := LoaderOut.finish.inj h
        rfl
    · simp at h
  · unfold Loader.commitExtent at h
    rcases h with h | h
    · obtain ⟨rfl, -⟩ := LoaderOut.readPage.inj h
      rfl
    · cases h
  · simp at h

/-! ### Where a mount ends -/

/-- No record continues the chain at the place. -/
def Stops (d : Buf) (seed : UInt32) (p : Place) : Prop :=
  ∀ size es next, scanAt d seed p ≠ .record size es next

/-- A trace from a place where no record is goes nowhere. -/
theorem Stops.trace {d : Buf} {seed : UInt32} {p q : Place} {es : List Entry} {js : List ℕ}
    (h : Stops d seed p) (ht : Trace d seed p es js q) : es = [] ∧ js = [] ∧ q = p := by
  cases ht with
  | refl => exact ⟨rfl, rfl, rfl⟩
  | step hs => exact absurd hs (h _ _ _)

theorem Loader.place_of_stopped {l l' : Loader} {X Y : Super} {m b : Bool}
    (h : l.stopped X m b = .finish l' Y) : Y.cursor.place = X.cursor.place := by
  unfold Loader.stopped at h
  split_ifs at h
  unfold Loader.end at h
  split at h
  · rename_i Z hr
    obtain ⟨-, rfl⟩ := LoaderOut.finish.inj h
    rw [(fed_of_applyEntries hr).2]
  · cases h

/-- The loop over a page ends where no record is. -/
theorem Loader.stops_of_parsePage {d : Buf} {m : Bool} {len n off : ℕ} {l l' : Loader} {X Y : Super}
    (h : InPage d X n off len) (hend : l.endId = none)
    (hf : l.parsePage m len n off X = .finish l' Y) :
    Stops d l.header.uuid.seed Y.cursor.place := by
  induction n generalizing off X with
  | zero =>
      have := h.fuel
      have := h.lt
      omega
  | succ n ih =>
      have here : l.stopped X m false = .finish l' Y → Stops d l.header.uuid.seed X.cursor.place →
          Stops d l.header.uuid.seed Y.cursor.place := fun hs hstop => by
        rw [place_of_stopped hs]
        exact hstop
      unfold Loader.parsePage at hf
      simp only at hf
      split at hf
      · rename_i hlen
        have := h.header_le
        have := h.lt
        omega
      split at hf
      · rename_i hsize
        exact here hf fun size es next hs => hsize (h.sizeOk_iff.2 (scanned_of_scanAt hs).ok)
      rename_i hsize
      rw [not_not] at hsize
      split at hf
      · rename_i hlong
        split at hf
        · rename_i hoff
          subst hoff
          have hfit := h.fits_of_zero (h.sizeOk_iff.1 hsize)
          rw [h.decodeHeader_eq] at hlong
          omega
        · cases hf
      rename_i hfit
      rw [h.scan_eq (fun _ => by rw [← h.decodeHeader_eq]; omega)] at hf
      split at hf
      · rename_i hscan
        refine here hf fun size es next hs => ?_
        rw [hscan] at hs
        cases hs
      · cases hf
      · rename_i size es next hscan
        have hsc := scanned_of_scanAt hscan
        split at hf
        · cases hf
        split at hf
        · cases hf
        rename_i Z hr
        obtain ⟨-, hcur⟩ := fed_of_applyEntries hr
        cases next with
        | some b =>
            simp only at hf
            split at hf
            · rename_i hfollow
              rw [hend] at hfollow
              cases hfollow.2
            · cases hf
        | none =>
            simp only at hf
            split at hf
            · cases hf
            · rename_i hpage
              have hin := h.behind (Y := Z) (k := X.cursor.seq + es.length) hsc
                (hsc.size_eq ▸ by rw [← h.decodeHeader_eq]; omega) hpage
              refine ih hin ?_
              simp only [hcur] at hf ⊢
              exact hf

/-- **A mount reads to the end of the chain.** -/
theorem Loader.stops_of_parserPage {d : Buf} {m : Bool} {l l' : Loader} {X Y : Super}
    (hv : X.cursor.place.Valid) (hend : l.endId = none) (hf : l.parserPage X m d = .finish l' Y) :
    Stops d l.header.uuid.seed Y.cursor.place := by
  obtain ⟨c, -, -, -, n, len, hin, heq⟩ := parserPage_inPage l m d hv
  rw [heq] at hf
  exact stops_of_parsePage hin hend hf

/-! ### What the parser does to the journal set -/

theorem mem_journal_applyEntries {X Y : Super} {es : List Entry}
    (h : applyEntries true X es = (Y, true)) (b : ℕ) :
    b ∈ Y.journal ↔ b ∈ X.journal ∨ .next b ∈ es := by
  induction es generalizing X with
  | nil =>
      obtain ⟨rfl, -⟩ := Prod.mk.inj h
      simp
  | cons e es ih =>
      rw [applyEntries] at h
      split at h
      · rename_i X' hr
        rw [ih h, (Super.replay_eq_ok.1 hr).mem_journal, List.mem_cons, or_assoc, eq_comm]
      · cases h

/-- The journal set of a private super is what it was fed as NEXT entries. -/
theorem Fed.mem_journal {X Y : Super} {es : List Entry} (h : Fed X es Y) (b : ℕ) :
    b ∈ Y.journal ↔ b ∈ X.journal ∨ .next b ∈ es := mem_journal_applyEntries h b

theorem next_notMem_of_regular {es : List Entry} (h : ∀ e ∈ es, e.Regular) (b : ℕ) :
    .next b ∉ es := fun hm => h _ hm rfl

end Cyanfs
