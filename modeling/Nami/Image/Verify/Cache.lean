import Mathlib.Algebra.BigOperators.Group.List.Basic
import Mathlib.Data.List.Nodup
import Nami.Image.Cache

/-!
# The image cache keeps its accounts

Each bitmap that came to the cache is held by one entry or was destroyed once, and the counters are those of the
bitmaps that are held. An entry that is added again without a bitmap must not hold one that a conversion replaces.
-/

namespace Nami.Image

open List

variable {w : Nat}

/-- The counters are those of the entries that hold a bitmap, no content has two entries, and a bitmap is either held
by one entry or was destroyed once. -/
structure Accounted (cache : Cache w) : Prop where
  size : cache.totalBitmapSize = ((cache.entries.filter fun e => e.bitmap.isSome).map Entry.bitmapSize).sum
  count : cache.bitmapCount = (cache.entries.filter fun e => e.bitmap.isSome).length
  contents : (cache.entries.map Entry.content).Nodup
  bitmaps : ∀ bitmap < cache.bitmaps,
    cache.entries.countP (fun e => e.bitmap == some bitmap) + cache.destroyed.count bitmap = 1

/-- A content that is added without a bitmap, and then converted, has no entry with a bitmap. -/
def CacheOp.Keeps (op : CacheOp w) (cache : Cache w) : Prop :=
  match op with
  | add content false true _ _ => cache.speculate content = true →
    ∀ e ∈ cache.entries, e.content = content.addr → e.bitmap = none
  | _ => True

/-! ## Entries -/

/-- The bitmap of an entry, with its size. -/
def Entry.holding (e : Entry w) : List (Nat × BitVec w) := (e.bitmap.map fun b => (b, e.bitmapSize)).toList

def holdings (entries : List (Entry w)) : List (Nat × BitVec w) := entries.flatMap Entry.holding

variable {cache : Cache w} {centry e : Entry w} {entries before behind : List (Entry w)} {content : Nat}
  {held : List (Nat × BitVec w)} {bitmap : Nat} {size : BitVec w}

theorem Entry.holding_some (h : e.bitmap = some bitmap) : e.holding = [(bitmap, e.bitmapSize)] := by
  unfold holding
  rw [h]
  rfl

theorem Entry.holding_none (h : e.bitmap = none) : e.holding = [] := by
  unfold holding
  rw [h]
  rfl

theorem holdings_mid : (holdings (before ++ e :: behind)).Perm (e.holding ++ holdings (before ++ behind)) := by
  unfold holdings
  rw [flatMap_append, flatMap_append, flatMap_cons, ← append_assoc, ← append_assoc]
  exact perm_append_comm.append_right _

theorem findEntry_eq_some (h : findEntry content entries = some (before, e, behind)) :
    entries = before ++ e :: behind ∧ e.content = content := by
  induction entries generalizing before with
  | nil => cases h
  | cons found entries ih =>
    unfold findEntry at h
    split at h
    · next hc =>
      cases h
      exact ⟨rfl, hc⟩
    · obtain ⟨⟨before', e', behind'⟩, hfind, heq⟩ := Option.map_eq_some_iff.mp h
      cases heq
      obtain ⟨rfl, hc⟩ := ih hfind
      exact ⟨rfl, hc⟩

theorem findEntry_eq_none (h : findEntry content entries = none) : content ∉ entries.map Entry.content := by
  induction entries with
  | nil => exact not_mem_nil
  | cons found entries ih =>
    unfold findEntry at h
    split at h
    · cases h
    · next hc =>
      rw [Option.map_eq_none_iff] at h
      rw [map_cons, mem_cons, not_or]
      exact ⟨Ne.symm hc, ih h⟩

/-! ## The books -/

/-- The counters and the fate of the bitmaps, given what is held. -/
structure Books (cache : Cache w) (held : List (Nat × BitVec w)) : Prop where
  size : cache.totalBitmapSize = (held.map Prod.snd).sum
  count : cache.bitmapCount = held.length
  bitmaps : (held.map Prod.fst ++ cache.destroyed).Perm (List.range cache.bitmaps)

namespace Books

theorem perm {held' : List (Nat × BitVec w)} (h : Books cache held) (hperm : held.Perm held') : Books cache held' where
  size := h.size.trans (hperm.map Prod.snd).sum_eq
  count := by rw [h.count, hperm.length_eq]
  bitmaps := ((hperm.map Prod.fst).append_right _).symm.trans h.bitmaps

theorem take (h : Books cache held) : Books { cache with
      totalBitmapSize := cache.totalBitmapSize + size
      bitmapCount := cache.bitmapCount + 1
      bitmaps := cache.bitmaps + 1 } ((cache.bitmaps, size) :: held) where
  size := by
    rw [map_cons, sum_cons, ← h.size]
    exact add_comm _ _
  count := by
    rw [length_cons, Nat.cast_succ, ← h.count]
  bitmaps := by
    rw [range_succ]
    exact (h.bitmaps.cons cache.bitmaps).trans (perm_append_singleton _ _).symm

theorem destroy (h : Books cache ((bitmap, size) :: held)) : Books { cache with
      totalBitmapSize := cache.totalBitmapSize - size
      bitmapCount := cache.bitmapCount - 1
      destroyed := bitmap :: cache.destroyed } held where
  size := by
    have hsize := h.size
    rw [map_cons, sum_cons] at hsize
    rw [hsize]
    exact add_sub_cancel_left _ _
  count := by
    have hcount := h.count
    rw [length_cons, Nat.cast_succ] at hcount
    rw [hcount]
    exact add_sub_cancel_right _ _
  bitmaps := perm_middle.trans h.bitmaps

theorem replace (h : Books cache ((bitmap, size) :: held)) : Books { cache with
      bitmaps := cache.bitmaps + 1
      destroyed := bitmap :: cache.destroyed } ((cache.bitmaps, size) :: held) where
  size := h.size
  count := h.count
  bitmaps := by
    rw [range_succ]
    exact ((perm_middle.trans h.bitmaps).cons cache.bitmaps).trans (perm_append_singleton _ _).symm

theorem freeBitmap (h : Books cache (centry.holding ++ held)) :
    Books (cache.freeBitmap centry).1 ((cache.freeBitmap centry).2.holding ++ held) ∧
      (cache.freeBitmap centry).2.content = centry.content ∧ (cache.freeBitmap centry).2.holding = [] := by
  unfold Cache.freeBitmap
  split
  · next hb => exact ⟨h, rfl, Entry.holding_none hb⟩
  · next bitmap hb =>
    rw [Entry.holding_some hb] at h
    exact ⟨⟨h.destroy.size, h.destroy.count, h.destroy.bitmaps⟩, rfl, rfl⟩

theorem ensureBitmap (h : Books cache (centry.holding ++ held)) (converts : Bool) :
    Books (cache.ensureBitmap converts centry).1 ((cache.ensureBitmap converts centry).2.holding ++ held) ∧
      (cache.ensureBitmap converts centry).2.content = centry.content := by
  unfold Cache.ensureBitmap Cache.runConvert
  cases hb : centry.bitmap with
  | some bitmap => exact ⟨⟨h.size, h.count, h.bitmaps⟩, rfl⟩
  | none =>
    rw [Entry.holding_none hb] at h
    by_cases hc : (centry.convert && converts) = true
    · rw [if_pos hc]
      exact ⟨⟨h.take.size, h.take.count, h.take.bitmaps⟩, rfl⟩
    · rw [if_neg hc]
      dsimp only
      rw [Entry.holding_none hb]
      exact ⟨⟨h.size, h.count, h.bitmaps⟩, rfl⟩

theorem setBitmap {c : Content w} (given converts : Bool) (h : Books cache (centry.holding ++ held))
    (hnone : given = false → centry.convert = true → cache.speculate c = true → centry.bitmap = none) :
    Books (cache.setBitmap c given converts centry).1 ((cache.setBitmap c given converts centry).2.holding ++ held) ∧
      (cache.setBitmap c given converts centry).2.content = centry.content := by
  unfold Cache.setBitmap Cache.runConvert
  cases given with
  | true =>
    cases hb : centry.bitmap with
    | some extant =>
      rw [Entry.holding_some hb] at h
      exact ⟨⟨h.replace.size, h.replace.count, h.replace.bitmaps⟩, rfl⟩
    | none =>
      rw [Entry.holding_none hb] at h
      exact ⟨⟨h.take.size, h.take.count, h.take.bitmaps⟩, rfl⟩
  | false =>
    rw [if_neg Bool.false_ne_true]
    split
    · next hspeculate =>
      rw [Bool.and_eq_true] at hspeculate
      have hb := hnone rfl hspeculate.1 hspeculate.2
      rw [Entry.holding_none hb] at h
      cases converts with
      | true => exact ⟨⟨h.take.size, h.take.count, h.take.bitmaps⟩, rfl⟩
      | false => exact ⟨⟨h.size, h.count, h.bitmaps⟩, rfl⟩
    · exact ⟨h, rfl⟩

theorem cons_iff :
    Books cache (holdings (e :: entries) ++ held) ↔ Books cache (holdings entries ++ (e.holding ++ held)) := by
  have hperm : (holdings (e :: entries) ++ held).Perm (holdings entries ++ (e.holding ++ held)) := by
    unfold holdings
    rw [flatMap_cons, append_assoc]
    exact perm_append_comm_assoc _ _ _
  exact ⟨fun h => h.perm hperm, fun h => h.perm hperm.symm⟩

theorem cleanEntry {P : Prop} [Decidable P] (h : Books cache (centry.holding ++ held)) :
    Books (if P then cache.freeBitmap centry else (cache, centry)).1
        ((if P then cache.freeBitmap centry else (cache, centry)).2.holding ++ held) ∧
      (if P then cache.freeBitmap centry else (cache, centry)).2.content = centry.content := by
  split
  · exact ⟨h.freeBitmap.1, h.freeBitmap.2.1⟩
  · exact ⟨h, rfl⟩

theorem cleanEntries (rand : Nat → Bool) (i : Nat) (h : Books cache (holdings entries ++ held)) :
    Books (Cache.cleanEntries rand i entries cache).2 (holdings (Cache.cleanEntries rand i entries cache).1 ++ held) ∧
      (Cache.cleanEntries rand i entries cache).1.map Entry.content = entries.map Entry.content := by
  induction entries generalizing cache held i with
  | nil => exact ⟨h, rfl⟩
  | cons centry entries ih =>
    have hperm : (holdings (centry :: entries) ++ held).Perm (centry.holding ++ (holdings entries ++ held)) := by
      unfold holdings
      rw [flatMap_cons, append_assoc]
    obtain ⟨hfirst, hcontent⟩ := cleanEntry (P := cache.currentAge - centry.redrawAge > cache.params.bgCleanTime ∧
      cache.totalBitmapSize > cache.params.limit - cache.params.hysteresis ∧ rand i = true) (h.perm hperm)
    obtain ⟨hrest, hcontents⟩ := ih (i + 1) (hfirst.perm (perm_append_comm_assoc _ _ _))
    refine ⟨cons_iff.mpr hrest, ?_⟩
    rw [map_cons, ← hcontent, ← hcontents]
    rfl

end Books

/-! ## Calls -/

/-- What the cache keeps. -/
structure Cache.Inv (cache : Cache w) : Prop where
  books : Books cache (holdings cache.entries)
  contents : (cache.entries.map Entry.content).Nodup

namespace Cache.Inv

theorem found (hi : cache.Inv) (hfind : findEntry content cache.entries = some (before, centry, behind)) :
    Books cache (centry.holding ++ holdings (before ++ behind)) ∧ centry.content = content := by
  obtain ⟨hentries, hcontent⟩ := findEntry_eq_some hfind
  have hbooks := hi.books
  rw [hentries] at hbooks
  exact ⟨hbooks.perm holdings_mid, hcontent⟩

theorem change {cache' : Cache w} (hi : cache.Inv)
    (hfind : findEntry content cache.entries = some (before, centry, behind))
    (hbooks : Books cache' (e.holding ++ holdings (before ++ behind))) (hcontent : e.content = centry.content) :
    Inv { cache' with entries := before ++ e :: behind } where
  books := ⟨(hbooks.perm holdings_mid.symm).size, (hbooks.perm holdings_mid.symm).count,
    (hbooks.perm holdings_mid.symm).bitmaps⟩
  contents := by
    have hnodup := hi.contents
    rw [(findEntry_eq_some hfind).1, map_append, map_cons, ← hcontent, ← map_cons, ← map_append] at hnodup
    exact hnodup

theorem getBitmap (hi : cache.Inv) (content : Nat) (converts : Bool) : (cache.getBitmap content converts).1.Inv := by
  unfold Cache.getBitmap
  split
  · exact hi
  · next before centry behind hfind =>
    obtain ⟨hbooks, hcontent⟩ := (hi.found hfind).1.ensureBitmap converts
    exact hi.change hfind hbooks hcontent

theorem redraw (hi : cache.Inv) (content : Nat) (converts : Bool) : (cache.redraw content converts).1.Inv := by
  unfold Cache.redraw
  split
  · exact hi
  · next before centry behind hfind =>
    obtain ⟨hbooks, hcontent⟩ := (hi.found hfind).1.ensureBitmap converts
    refine hi.change hfind ?_ ?_
    · split
      · exact hbooks
      · exact hbooks
    · split
      · exact hcontent
      · exact hcontent

theorem remove (hi : cache.Inv) (content : Nat) : (cache.remove content).Inv := by
  unfold Cache.remove
  split
  · exact hi
  · next before centry behind hfind =>
    have hfound := (hi.found hfind).1
    have hnodup := hi.contents
    rw [(findEntry_eq_some hfind).1] at hnodup
    have hstats : Books (if centry.redrawCount = 0 then { cache with
        stats := { cache.stats with totalUnrendered := cache.stats.totalUnrendered + 1 } } else cache)
        (centry.holding ++ holdings (before ++ behind)) := by
      split
      · exact ⟨hfound.size, hfound.count, hfound.bitmaps⟩
      · exact hfound
    obtain ⟨hfree, -, hnone⟩ := hstats.freeBitmap
    rw [hnone] at hfree
    refine ⟨⟨hfree.size, hfree.count, hfree.bitmaps⟩, hnodup.sublist ?_⟩
    exact ((sublist_cons_self centry behind).append_left before).map Entry.content

theorem backgroundUpdate (hi : cache.Inv) (rand : Nat → Bool) : (cache.backgroundUpdate rand).Inv := by
  have hbooks : Books { cache with currentAge := cache.currentAge + cache.params.bgCleanTime }
      (holdings cache.entries ++ []) := by
    rw [append_nil]
    exact ⟨hi.books.size, hi.books.count, hi.books.bitmaps⟩
  obtain ⟨hclean, hcontents⟩ := hbooks.cleanEntries rand 0
  rw [append_nil] at hclean
  refine ⟨⟨hclean.size, hclean.count, hclean.bitmaps⟩, ?_⟩
  have hnodup := hi.contents
  rw [← hcontents] at hnodup
  exact hnodup

theorem add {c : Content w} {bitmap convert converts calloc : Bool} (hi : cache.Inv)
    (hkeeps : (CacheOp.add c bitmap convert converts calloc).Keeps cache) :
    (cache.add c bitmap convert converts calloc).Inv := by
  have haged : Inv { cache with currentAge := cache.currentAge + 1 } :=
    ⟨⟨hi.books.size, hi.books.count, hi.books.bitmaps⟩, hi.contents⟩
  unfold Cache.add
  dsimp only
  split
  · next before centry behind hfind =>
    obtain ⟨hfound, hcontent⟩ := haged.found hfind
    have hnone : bitmap = false → convert = true →
        speculate { cache with currentAge := cache.currentAge + 1 } c = true → centry.bitmap = none := by
      rintro rfl rfl hspeculate
      refine hkeeps hspeculate centry ?_ hcontent
      rw [(findEntry_eq_some hfind).1]
      exact mem_append_right _ mem_cons_self
    have hsame : Books { cache with currentAge := cache.currentAge + 1 }
        (Entry.holding { centry with convert } ++ holdings (before ++ behind)) := hfound
    obtain ⟨hbooks, hcontent⟩ := hsame.setBitmap bitmap converts hnone
    exact haged.change hfind hbooks hcontent
  · next hfind =>
    cases calloc with
    | false => exact haged
    | true =>
      rw [if_pos rfl]
      have hnew : Books { cache with currentAge := cache.currentAge + 1 }
          (Entry.holding { newEntry c with convert } ++ holdings cache.entries) := haged.books
      obtain ⟨hbooks, hsame⟩ := hnew.setBitmap bitmap converts fun _ _ _ => rfl
      refine ⟨⟨hbooks.size, hbooks.count, hbooks.bitmaps⟩, ?_⟩
      refine nodup_cons.mpr ⟨?_, hi.contents⟩
      rw [hsame]
      exact findEntry_eq_none hfind

theorem exec {op : CacheOp w} (hi : cache.Inv) (hkeeps : op.Keeps cache) : (op.exec cache).Inv :=
  match op with
  | .add .. => hi.add hkeeps
  | .getBitmap content converts => hi.getBitmap content converts
  | .redraw content converts => hi.redraw content converts
  | .remove content => hi.remove content
  | .backgroundUpdate rand => hi.backgroundUpdate rand

end Cache.Inv

/-! ## The accounts -/

theorem holdings_sizes : (holdings entries).map Prod.snd =
    (entries.filter fun e => e.bitmap.isSome).map Entry.bitmapSize := by
  induction entries with
  | nil => rfl
  | cons e entries ih =>
    unfold holdings at ih ⊢
    rw [flatMap_cons, map_append, ih]
    cases hb : e.bitmap with
    | none => rw [Entry.holding_none hb, filter_cons_of_neg (by rw [hb]; exact Bool.false_ne_true)]; rfl
    | some bitmap => rw [Entry.holding_some hb, filter_cons_of_pos (by rw [hb]; rfl)]; rfl

theorem holdings_bitmaps : ((holdings entries).map Prod.fst).count bitmap =
    entries.countP fun e => e.bitmap == some bitmap := by
  induction entries with
  | nil => rfl
  | cons e entries ih =>
    unfold holdings at ih ⊢
    rw [flatMap_cons, map_append, count_append, ih, countP_cons, add_comm]
    congr 1
    cases hb : e.bitmap with
    | none =>
      rw [Entry.holding_none hb]
      rfl
    | some other =>
      rw [Entry.holding_some hb]
      simp [count_singleton]

theorem Cache.Inv.accounted (hi : cache.Inv) : Accounted cache where
  size := by rw [hi.books.size, holdings_sizes]
  count := by
    rw [hi.books.count, ← length_map Prod.snd, holdings_sizes, length_map]
  contents := hi.contents
  bitmaps := by
    intro bitmap hlt
    rw [← holdings_bitmaps, ← count_append, hi.books.bitmaps.count_eq]
    exact count_eq_one_of_mem nodup_range (mem_range.mpr hlt)

theorem inv_initial (params : Parameters w) : (Cache.initial params).Inv where
  books := ⟨rfl, rfl, .refl _⟩
  contents := nodup_nil

/-- As long as no content that has a bitmap is added again without one and converted, the accounts are kept. -/
theorem accounted_of_run {ops : List (CacheOp w)} (hr : (cacheSystem w).Run CacheOp.Keeps ops cache) :
    Accounted cache := by
  refine Cache.Inv.accounted (hr.invariant ?_ ?_)
  · rintro cache ⟨params, rfl⟩
    exact inv_initial params
  · rintro op cache cache' hkeeps rfl hi
    exact hi.exec hkeeps

/-- A small image, that is converted when it is added. -/
def smallImage : Content 32 := ⟨0, 2, 3, 24⟩

def smallCache : Cache 32 := .initial ⟨1000, 4096, 1024, 64⟩

/-- It is added with a bitmap, which is replaced by a second one, and asked for. -/
theorem accounted_smallImage : Accounted ((CacheOp.getBitmap 0 true).exec
    ((CacheOp.add smallImage true true true true).exec
      ((CacheOp.add smallImage true true true true).exec smallCache))) := by
  have hstart : (cacheSystem 32).Run CacheOp.Keeps [] smallCache := .start ⟨_, rfl⟩
  have htwice := (hstart.step (.add smallImage true true true true) trivial rfl).step
    (.add smallImage true true true true) trivial rfl
  exact accounted_of_run (htwice.step (.getBitmap 0 true) trivial rfl)

/-- The content of an entry with a bitmap is added again without one: the conversion takes its place. -/
theorem not_accounted : ¬∀ (ops : List (CacheOp 32)) (cache : Cache 32),
    (cacheSystem 32).AnyRun ops cache → Accounted cache := by
  intro h
  have hstart : (cacheSystem 32).AnyRun [] smallCache := .start ⟨_, rfl⟩
  have htwice := (hstart.step (.add smallImage true true true true) trivial rfl).step
    (.add smallImage false true true true) trivial rfl
  have hlost := (h _ _ htwice).bitmaps 0 (by decide)
  revert hlost
  decide

end Nami.Image
