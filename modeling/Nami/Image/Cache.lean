import Mathlib.Data.BitVec
import Nami.Lib.Run

/-!
# The image cache

`content/handlers/image/image_cache.c`. Bitmaps have the numbers in which they come to the cache, from its callers
or from conversions, so that a bitmap that is lost can be told. A `size_t` has `w` bits. Plotting is left out.
-/

namespace Nami.Image

/-- What the cache reads of a `struct content`. -/
structure Content (w : Nat) where
  addr : Nat
  width : Int
  height : Int
  size : BitVec w

/-- `struct image_cache_parameters`. -/
structure Parameters (w : Nat) where
  bgCleanTime : UInt32
  limit : BitVec w
  hysteresis : BitVec w
  speculativeSmall : BitVec w

/-- `struct image_cache_entry_s`; of the routine to convert the content, whether there is one. -/
structure Entry (w : Nat) where
  content : Nat
  bitmap : Option Nat
  convert : Bool
  redrawCount : UInt32
  redrawAge : UInt32
  bitmapSize : BitVec w
  bitmapAge : UInt32
  conversionCount : Int

/-- What `struct image_cache_s` has for its summary only. -/
structure Statistics (w : Nat) where
  maxBitmapSize : BitVec w
  maxBitmapSizeCount : Int
  maxBitmapCount : Int
  maxBitmapCountSize : BitVec w
  missCount : Int
  missSize : UInt64
  hitCount : Int
  hitSize : UInt64
  failCount : Int
  failSize : UInt64
  totalUnrendered : Int
  specultiveMissCount : Int
  totalExtraConversions : Int
  totalExtraConversionsCount : Int
  peakConversions : Int
  peakConversionsSize : UInt32

/-- `struct image_cache_s`, with the number of bitmaps that came to it and those that it destroyed. -/
structure Cache (w : Nat) where
  params : Parameters w
  currentAge : UInt32
  entries : List (Entry w)
  totalBitmapSize : BitVec w
  bitmapCount : Int
  stats : Statistics w
  bitmaps : Nat
  destroyed : List Nat

variable {w : Nat}

/-- `image_cache__find`, with the entries before and behind the one that is found. -/
def findEntry (content : Nat) : List (Entry w) → Option (List (Entry w) × Entry w × List (Entry w))
  | [] => none
  | centry :: entries =>
    if centry.content = content then some ([], centry, entries)
    else (findEntry content entries).map fun (before, found, behind) => (centry :: before, found, behind)

namespace Cache

variable (cache : Cache w)

/-- What `image_cache_stats_bitmap_add` does to the statistics. -/
def statsAdd (centry : Entry w) : Statistics w :=
  let stats := cache.stats
  let total := cache.totalBitmapSize
  let stats := if total > stats.maxBitmapSize then
    { stats with maxBitmapSize := total, maxBitmapSizeCount := cache.bitmapCount } else stats
  let stats := if cache.bitmapCount > stats.maxBitmapCount then
    { stats with maxBitmapCount := cache.bitmapCount, maxBitmapCountSize := total } else stats
  let stats := if centry.conversionCount = 2 then
    { stats with totalExtraConversionsCount := stats.totalExtraConversionsCount + 1 } else stats
  let stats := if centry.conversionCount > 1 then
    { stats with totalExtraConversions := stats.totalExtraConversions + 1 } else stats
  if centry.conversionCount > stats.peakConversions ∨
      centry.conversionCount = stats.peakConversions ∧ centry.bitmapSize.toNat > stats.peakConversionsSize.toNat then
    { stats with
      peakConversions := centry.conversionCount
      peakConversionsSize := UInt32.ofNat centry.bitmapSize.toNat }
  else stats

/-- `image_cache_stats_bitmap_add`. -/
def statsBitmapAdd (centry : Entry w) : Cache w × Entry w :=
  let centry := { centry with bitmapAge := cache.currentAge, conversionCount := centry.conversionCount + 1 }
  let cache := { cache with
    totalBitmapSize := cache.totalBitmapSize + centry.bitmapSize
    bitmapCount := cache.bitmapCount + 1 }
  ({ cache with stats := cache.statsAdd centry }, centry)

/-- `image_cache__free_bitmap`. -/
def freeBitmap (centry : Entry w) : Cache w × Entry w :=
  match centry.bitmap with
  | none => (cache, centry)
  | some bitmap =>
    ({ cache with
      destroyed := bitmap :: cache.destroyed
      totalBitmapSize := cache.totalBitmapSize - centry.bitmapSize
      bitmapCount := cache.bitmapCount - 1
      stats := if centry.redrawCount = 0 then
        { cache.stats with specultiveMissCount := cache.stats.specultiveMissCount + 1 } else cache.stats },
      { centry with bitmap := none })

/-- `image_cache__free_entry`, of an entry between others. -/
def freeEntry (before : List (Entry w)) (centry : Entry w) (behind : List (Entry w)) : Cache w :=
  let cache := if centry.redrawCount = 0 then
    { cache with stats := { cache.stats with totalUnrendered := cache.stats.totalUnrendered + 1 } } else cache
  { (cache.freeBitmap centry).1 with entries := before ++ behind }

/-- The loop of `image_cache__clean`; `rand` is what the coin says for each of the entries. -/
def cleanEntries (rand : Nat → Bool) : Nat → List (Entry w) → Cache w → List (Entry w) × Cache w
  | _, [], cache => ([], cache)
  | i, centry :: entries, cache =>
    let (cache, centry) :=
      if cache.currentAge - centry.redrawAge > cache.params.bgCleanTime ∧
          cache.totalBitmapSize > cache.params.limit - cache.params.hysteresis ∧ rand i = true then
        cache.freeBitmap centry
      else (cache, centry)
    let (entries, cache) := cleanEntries rand (i + 1) entries cache
    (centry :: entries, cache)

/-- `image_cache__clean`. -/
def clean (rand : Nat → Bool) : Cache w :=
  let (entries, cache) := cleanEntries rand 0 cache.entries cache
  { cache with entries }

/-- `image_cache__background_update`. -/
def backgroundUpdate (rand : Nat → Bool) : Cache w :=
  { cache with currentAge := cache.currentAge + cache.params.bgCleanTime }.clean rand

/-- `centry->convert(centry->content)`, which gives a bitmap or not. -/
def runConvert (converts : Bool) : Cache w × Option Nat :=
  if converts then ({ cache with bitmaps := cache.bitmaps + 1 }, some cache.bitmaps) else (cache, none)

/-- What `image_cache_get_bitmap` and `image_cache_redraw` do first: a conversion where there is no bitmap. -/
def ensureBitmap (converts : Bool) (centry : Entry w) : Cache w × Entry w :=
  let size := UInt64.ofNat centry.bitmapSize.toNat
  match centry.bitmap with
  | some _ =>
    ({ cache with stats := { cache.stats with
      hitCount := cache.stats.hitCount + 1, hitSize := cache.stats.hitSize + size } }, centry)
  | none =>
    match cache.runConvert (centry.convert && converts) with
    | (cache, some bitmap) =>
      let (cache, centry) := cache.statsBitmapAdd { centry with bitmap := some bitmap }
      ({ cache with stats := { cache.stats with
        missCount := cache.stats.missCount + 1, missSize := cache.stats.missSize + size } }, centry)
    | (cache, none) =>
      ({ cache with stats := { cache.stats with
        failCount := cache.stats.failCount + 1, failSize := cache.stats.failSize + size } }, centry)

/-- `image_cache_get_bitmap`. -/
def getBitmap (content : Nat) (converts : Bool) : Cache w × Option Nat :=
  match findEntry content cache.entries with
  | none => (cache, none)
  | some (before, centry, behind) =>
    let (cache, centry) := cache.ensureBitmap converts centry
    ({ cache with entries := before ++ centry :: behind }, centry.bitmap)

/-- `image_cache_redraw`, with the bitmap that is plotted. -/
def redraw (content : Nat) (converts : Bool) : Cache w × Option Nat :=
  match findEntry content cache.entries with
  | none => (cache, none)
  | some (before, centry, behind) =>
    let (cache, centry) := cache.ensureBitmap converts centry
    let centry := if centry.bitmap.isNone then centry
      else { centry with redrawCount := centry.redrawCount + 1, redrawAge := cache.currentAge }
    ({ cache with entries := before ++ centry :: behind }, centry.bitmap)

/-- `image_cache_speculate`. -/
def speculate (c : Content w) : Bool :=
  decide (cache.totalBitmapSize < cache.params.limit) && decide (c.size ≤ cache.params.speculativeSmall)

/-- What `image_cache_add` does with the bitmap of an entry, new or not: one that is passed replaces it, and
without one there may be a conversion. -/
def setBitmap (content : Content w) (bitmap converts : Bool) (centry : Entry w) : Cache w × Entry w :=
  if bitmap then
    let given := cache.bitmaps
    let cache := { cache with bitmaps := given + 1 }
    let (cache, centry) := match centry.bitmap with
      | some extant => ({ cache with destroyed := extant :: cache.destroyed }, centry)
      | none => cache.statsBitmapAdd centry
    (cache, { centry with bitmap := some given })
  else if centry.convert && cache.speculate content then
    match cache.runConvert converts with
    | (cache, some converted) => cache.statsBitmapAdd { centry with bitmap := some converted }
    | (cache, none) =>
      ({ cache with stats := { cache.stats with failCount := cache.stats.failCount + 1 } },
        { centry with bitmap := none })
  else (cache, centry)

/-- A new entry. -/
def newEntry (content : Content w) : Entry w where
  content := content.addr
  bitmap := none
  convert := false
  redrawCount := 0
  redrawAge := 0
  bitmapSize := BitVec.ofInt w (content.width * content.height * 4)
  bitmapAge := 0
  conversionCount := 0

/-- `image_cache_add`; `bitmap` and `convert` are whether these are passed, `calloc` is whether a new entry can be
allocated. Where it cannot, the bitmap stays with the caller. -/
def add (content : Content w) (bitmap convert converts calloc : Bool) : Cache w :=
  let cache := { cache with currentAge := cache.currentAge + 1 }
  match findEntry content.addr cache.entries with
  | some (before, centry, behind) =>
    let (cache, centry) := cache.setBitmap content bitmap converts { centry with convert }
    { cache with entries := before ++ centry :: behind }
  | none =>
    if calloc then
      let entries := cache.entries
      let (cache, centry) := cache.setBitmap content bitmap converts { newEntry content with convert }
      { cache with entries := centry :: entries }
    else cache

/-- `image_cache_remove`, and `image_cache_destroy`. -/
def remove (content : Nat) : Cache w :=
  match findEntry content cache.entries with
  | none => cache
  | some (before, centry, behind) => cache.freeEntry before centry behind

/-- `image_cache_init`. -/
def initial (params : Parameters w) : Cache w where
  params
  currentAge := 0
  entries := []
  totalBitmapSize := 0
  bitmapCount := 0
  stats := ⟨0, 0, 0, 0, 0, 0, 0, 0, 0, 0, 0, 0, 0, 0, 0, 0⟩
  bitmaps := 0
  destroyed := []

end Cache

/-- The calls of the cache, with what the conversions, the allocations and the coin give. -/
inductive CacheOp (w : Nat) where
  | add (content : Content w) (bitmap convert converts calloc : Bool)
  | getBitmap (content : Nat) (converts : Bool)
  | redraw (content : Nat) (converts : Bool)
  | remove (content : Nat)
  | backgroundUpdate (rand : Nat → Bool)

def CacheOp.exec (cache : Cache w) : CacheOp w → Cache w
  | add content bitmap convert converts calloc => cache.add content bitmap convert converts calloc
  | getBitmap content converts => (cache.getBitmap content converts).1
  | redraw content converts => (cache.redraw content converts).1
  | remove content => cache.remove content
  | backgroundUpdate rand => cache.backgroundUpdate rand

def cacheSystem (w : Nat) : System (Cache w) (CacheOp w) where
  init cache := ∃ params, cache = .initial params
  step op cache cache' := cache' = op.exec cache

end Nami.Image
