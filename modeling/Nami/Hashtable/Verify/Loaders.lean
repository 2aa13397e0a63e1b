import Nami.Hashtable.Basic
import Nami.Lib.Lines

/-!
# The loaders of the message table

Every loader processes the complete lines of a text in order, up to the first that is refused. They
differ in what becomes of a last line without a line end.
-/

namespace Nami.Hashtable

open List
open Lines

variable {malloc : Nat → Bool}

/-! ## The table -/

/-- Memory is granted for an entry. -/
def Granted (malloc : Nat → Bool) (key value : Bytes) : Bool :=
  malloc sizeofHashEntry && malloc (value.length + key.length + 2)

theorem hashAdd_refused {ht : HashTable} {key value : Bytes} (h : Granted malloc key value = false) :
    hashAdd malloc ht key value = (ht, .noMem) := by
  rw [Granted, Bool.and_eq_false_iff] at h
  rw [hashAdd]
  split
  · rfl
  · next hentry => rw [if_pos (by rcases h with h | h <;> simp_all)]

theorem hashAdd_snd {ht : HashTable} {key value : Bytes} :
    (hashAdd malloc ht key value).2 = .ok ↔ Granted malloc key value = true := by
  rw [Granted, hashAdd]
  cases malloc sizeofHashEntry <;> cases malloc (value.length + key.length + 2) <;> simp

theorem nchains_hashAdd (ht : HashTable) (key value : Bytes) :
    (hashAdd malloc ht key value).1.nchains = ht.nchains := by
  rw [hashAdd]
  split
  · rfl
  · split
    · rfl
    · exact length_set

theorem hashGet_hashAdd {ht : HashTable} (hpos : 0 < ht.nchains) {key value : Bytes}
    (h : Granted malloc key value = true) (k : Bytes) :
    hashGet (hashAdd malloc ht key value).1 k = if k = key then some value else hashGet ht k := by
  have hchain : chainOf (hashAdd malloc ht key value).1 k = chainOf ht k := by
    rw [chainOf, chainOf, nchains_hashAdd]
  have hlt : ∀ k, chainOf ht k < ht.chain.length := fun k => Nat.mod_lt _ hpos
  rw [Granted, Bool.and_eq_true] at h
  rw [hashGet, hchain, hashAdd, h.1, h.2]
  simp only [Bool.not_true, Bool.false_eq_true, if_false]
  by_cases hk : k = key
  · subst hk
    simp [getD_eq_getElem?_getD, hlt k]
  · rw [if_neg hk, hashGet]
    by_cases hc : chainOf ht key = chainOf ht k
    · rw [hc]
      simp [getD_eq_getElem?_getD, hlt k, Ne.symm hk]
    · simp [getD_eq_getElem?_getD, hc]

/-! ## One line -/

/-- Blank lines and comments. -/
def Ignored (ln : Bytes) : Bool :=
  match ln.dropWhile isBlank with
  | [] => true
  | c :: _ => c == 0 || c == '#'

/-- The key and the value of a line. -/
def keyValue (ln : Bytes) : Option (Bytes × Bytes) :=
  match (ln.dropWhile isBlank).dropWhile (· ≠ (':' : UInt8)) with
  | [] => none
  | _ :: value => some (cstr ((ln.dropWhile isBlank).takeWhile (· ≠ (':' : UInt8))), cstr value)

theorem processLine_eq (ht : HashTable) (ln : Bytes) : processLine malloc ht ln =
    if Ignored ln then (ht, .ok)
    else
      match keyValue ln with
      | none => (ht, .invalid)
      | some (key, value) => hashAdd malloc ht key value := by
  rw [processLine, Ignored, keyValue]
  split
  · next h => simp only [h, if_true]
  · next c key h =>
    simp only [h, beq_iff_eq, Bool.or_eq_true]
    split
    · rfl
    · cases (c :: key).dropWhile (· ≠ (':' : UInt8)) <;> rfl

/-- A line that has no separator, or no memory for its entry. -/
def Refused (malloc : Nat → Bool) (ln : Bytes) : Bool :=
  !Ignored ln && (keyValue ln).all fun e => !Granted malloc e.1 e.2

/-- The entry of a line that is neither ignored nor refused. -/
def entryOf (ln : Bytes) : Option (Bytes × Bytes) := if Ignored ln then none else keyValue ln

theorem processLine_snd (ht : HashTable) (ln : Bytes) :
    (processLine malloc ht ln).2 = .ok ↔ Refused malloc ln = false := by
  rw [processLine_eq, Refused]
  by_cases hi : Ignored ln = true
  · simp [hi]
  · simp only [hi, Bool.false_eq_true, if_false]
    cases hkv : keyValue ln with
    | none => simp
    | some e => simp [hashAdd_snd]

theorem nchains_processLine (ht : HashTable) (ln : Bytes) : (processLine malloc ht ln).1.nchains = ht.nchains := by
  rw [processLine_eq]
  split
  · rfl
  · split
    · rfl
    · exact nchains_hashAdd ht _ _

theorem hashGet_processLine {ht : HashTable} (hpos : 0 < ht.nchains) {ln : Bytes}
    (h : Refused malloc ln = false) (k : Bytes) :
    hashGet (processLine malloc ht ln).1 k = ((entryOf ln).toList.lookup k).or (hashGet ht k) := by
  rw [processLine_eq, entryOf]
  by_cases hi : Ignored ln = true
  · simp [hi]
  · rw [Refused] at h
    simp only [hi, Bool.false_eq_true, if_false]
    cases hkv : keyValue ln with
    | none => simp [hi, hkv] at h
    | some e =>
      obtain ⟨key, value⟩ := e
      have hgranted : Granted malloc key value = true := by simpa [hi, hkv] using h
      simp only [hashGet_hashAdd hpos hgranted, Option.toList_some, lookup_cons]
      by_cases hk : k = key
      · simp [hk]
      · simp [hk, beq_eq_false_iff_ne.2 hk]

/-! ## Many lines -/

/-- The lines in order, up to the first that is refused. -/
def processLines (malloc : Nat → Bool) (ht : HashTable) : List Bytes → HashTable × NsError
  | [] => (ht, .ok)
  | l :: ls =>
    let (ht, res) := processLine malloc ht l
    if res ≠ .ok then (ht, res) else processLines malloc ht ls

theorem processLines_append (ht : HashTable) (as bs : List Bytes) : processLines malloc ht (as ++ bs) =
      if (processLines malloc ht as).2 = .ok then processLines malloc (processLines malloc ht as).1 bs
      else processLines malloc ht as := by
  induction as generalizing ht with
  | nil => rfl
  | cons a as ih =>
    simp only [cons_append, processLines, ih]
    by_cases h : (processLine malloc ht a).2 = .ok
    · simp [h]
    · simp [h]

theorem processLines_singleton (ht : HashTable) (l : Bytes) : processLines malloc ht [l] = processLine malloc ht l := by
  simp only [processLines]
  split
  · rfl
  · next h => exact Prod.ext rfl (not_not.1 h).symm

theorem processLines_snd (ht : HashTable) (ls : List Bytes) :
    (processLines malloc ht ls).2 = .ok ↔ ∀ l ∈ ls, Refused malloc l = false := by
  induction ls generalizing ht with
  | nil => simp [processLines]
  | cons l ls ih =>
    simp only [processLines, forall_mem_cons, ← ih (processLine malloc ht l).1, ← processLine_snd ht l]
    by_cases h : (processLine malloc ht l).2 = .ok <;> simp [h]

theorem nchains_processLines (ht : HashTable) (ls : List Bytes) :
    (processLines malloc ht ls).1.nchains = ht.nchains := by
  induction ls generalizing ht with
  | nil => rfl
  | cons l ls ih =>
    simp only [processLines]
    split
    · exact nchains_processLine ht l
    · exact (ih _).trans (nchains_processLine ht l)

/-- The entries of the lines, the last first. -/
def entries (ls : List Bytes) : List (Bytes × Bytes) := (ls.filterMap entryOf).reverse

theorem hashGet_processLines {ht : HashTable} (hpos : 0 < ht.nchains) {ls : List Bytes}
    (h : ∀ l ∈ ls, Refused malloc l = false) (k : Bytes) :
    hashGet (processLines malloc ht ls).1 k = ((entries ls).lookup k).or (hashGet ht k) := by
  induction ls generalizing ht with
  | nil => rfl
  | cons l ls ih =>
    obtain ⟨hl, hls⟩ := forall_mem_cons.1 h
    have hok : ¬ (processLine malloc ht l).2 ≠ .ok := not_not.2 ((processLine_snd ht l).2 hl)
    have hpos' : 0 < (processLine malloc ht l).1.nchains := by
      rw [nchains_processLine]
      exact hpos
    have hentries : entries (l :: ls) = entries ls ++ (entryOf l).toList := by
      rw [entries, entries, filterMap_cons]
      cases entryOf l <;> simp
    simp only [processLines, if_neg hok]
    rw [ih hpos' hls, hashGet_processLine hpos hl, hentries, lookup_append, Option.or_assoc]

/-! ## Plain text -/

/-- The lines of a text with the last one, complete or not. -/
def allLines (text : Bytes) : List Bytes :=
  (split ('\n' : UInt8) text).1 ++ [(split ('\n' : UInt8) text).2]

theorem allLines_append (a b : Bytes) : allLines (a ++ b) =
    (split ('\n' : UInt8) a).1 ++ allLines ((split ('\n' : UInt8) a).2 ++ b) := by
  rw [allLines, split_append, allLines, append_assoc]

theorem plainLoop_line {s l : Bytes} (hnl : ('\n' : UInt8) ∉ l) (h : (s ++ l).length ≤ lineBufferSize)
    (ht : HashTable) (data : Bytes) :
    plainLoop malloc ht s (l ++ data) = plainLoop malloc ht (s ++ l) data := by
  induction l generalizing s with
  | nil => rw [nil_append, append_nil]
  | cons c l ih =>
    rw [mem_cons, not_or] at hnl
    have hcat : s ++ c :: l = s ++ [c] ++ l := by rw [append_assoc, singleton_append]
    rw [hcat] at h ⊢
    have hlen : ¬ lineBufferSize < (s ++ [c]).length := by
      rw [length_append] at h
      omega
    rw [cons_append, plainLoop, if_neg (Ne.symm hnl.1), if_neg hlen, ih hnl.2 h]

theorem plainLoop_eq {text : Bytes} (h : ∀ l ∈ allLines text, l.length ≤ lineBufferSize)
    (ht : HashTable) : plainLoop malloc ht [] text =
      let r := processLines malloc ht (split ('\n' : UInt8) text).1
      (r.1, r.2, if r.2 = .ok then (split ('\n' : UInt8) text).2 else []) := by
  induction text using Lines.induction ('\n' : UInt8) generalizing ht with
  | last r hr =>
    rw [allLines, split_last hr] at h
    have hlen : ([] ++ r).length ≤ lineBufferSize := h r (mem_singleton_self r)
    have hloop := @plainLoop_line malloc [] r hr hlen ht []
    rw [append_nil, nil_append] at hloop
    rw [hloop, split_last hr]
    rfl
  | line l s hl ih =>
    rw [allLines, split_line hl, cons_append, forall_mem_cons] at h
    have hlen : ([] ++ l).length ≤ lineBufferSize := h.1
    rw [plainLoop_line hl hlen, nil_append, plainLoop, if_pos rfl, split_line hl]
    simp only [processLines]
    split
    · next hres => simp only
    · exact ih h.2 _

theorem hashAddInlinePlain_eq {text : Bytes} (h : ∀ l ∈ allLines text, l.length ≤ lineBufferSize)
    (ht : HashTable) : hashAddInlinePlain malloc ht text = processLines malloc ht (allLines text) := by
  rw [hashAddInlinePlain, plainLoop_eq h, allLines, processLines_append]
  simp only
  by_cases hok : (processLines malloc ht (split ('\n' : UInt8) text).1).2 = .ok
  · rw [if_pos hok, if_pos hok, processLines_singleton]
    cases hr : (split ('\n' : UInt8) text).2 with
    | nil => rw [if_neg (by simp), hok]; rfl
    | cons c r => rw [if_pos (by simp)]
  · rw [if_neg hok, if_neg hok, if_neg (by simp)]

/-! ## Compressed text -/

theorem takeWhile_ne_append {c : UInt8} {l : Bytes} (h : c ∉ l) (s : Bytes) :
    (l ++ c :: s).takeWhile (· ≠ c) = l ∧ (l ++ c :: s).dropWhile (· ≠ c) = c :: s := by
  have hl : ∀ d ∈ l, decide (d ≠ c) = true := fun d hd =>
    decide_eq_true fun he => h (he ▸ hd)
  rw [takeWhile_append_of_pos hl, dropWhile_append_of_pos hl]
  simp

theorem processBuffer_eq {s : Bytes} {fuel : Nat} (hfuel : s.length ≤ fuel) (ht : HashTable) :
    ∃ rest, processBuffer malloc ht s fuel = ((processLines malloc ht (split ('\n' : UInt8) s).1).1,
          (processLines malloc ht (split ('\n' : UInt8) s).1).2, rest) ∧
      ((processLines malloc ht (split ('\n' : UInt8) s).1).2 = .ok → rest = (split ('\n' : UInt8) s).2) := by
  induction fuel generalizing s ht with
  | zero =>
    obtain rfl := length_eq_zero_iff.1 (Nat.le_zero.1 hfuel)
    exact ⟨[], rfl, fun _ => rfl⟩
  | succ fuel ih =>
    rcases cases_line ('\n' : UInt8) s with hs | ⟨l, t, rfl, hl⟩
    · have hdrop : s.dropWhile (· ≠ ('\n' : UInt8)) = [] :=
        dropWhile_eq_nil_iff.2 fun c hc => decide_eq_true fun he => hs (he ▸ hc)
      rw [processBuffer, hdrop, split_last hs]
      exact ⟨s, rfl, fun _ => rfl⟩
    · obtain ⟨htake, hdrop⟩ := takeWhile_ne_append hl t
      have hlen : t.length ≤ fuel := by
        rw [length_append, length_cons] at hfuel
        omega
      rw [processBuffer, htake, hdrop, split_line hl]
      simp only [processLines]
      split
      · next hres => exact ⟨t, rfl, fun hok => absurd hok hres⟩
      · exact ih hlen _

/-- zlib gives back a text in at most `n` calls with room for output, in pieces of any length that
fits. -/
def Zlib.Decompresses (Z : Zlib) : Nat → Z.Stream → Bytes → Prop
  | 0, _, _ => False
  | n + 1, strm, text => ∀ avail, 0 < avail → ∃ out strm' rest,
      out.length ≤ avail ∧ text = out ++ rest ∧
        (Z.inflate strm avail = (.streamEnd, out, strm') ∧ rest = [] ∨
          Z.inflate strm avail = (.ok, out, strm') ∧ Z.Decompresses n strm' rest)

theorem gzipLoop_eq {Z : Zlib} {n : Nat} {strm : Z.Stream} {s rest : Bytes}
    (hz : Z.Decompresses n strm rest) (hs : ('\n' : UInt8) ∉ s)
    (hshort : ∀ l ∈ allLines (s ++ rest), l.length < lineBufferSize) (ht : HashTable) {fuel : Nat}
    (hfuel : n ≤ fuel) :
    gzipLoop malloc Z fuel ht s strm = some (processLines malloc ht (split ('\n' : UInt8) (s ++ rest)).1) := by
  induction n generalizing strm s rest ht fuel with
  | zero => exact absurd hz id
  | succ n ih =>
    obtain ⟨fuel, rfl⟩ := Nat.exists_eq_add_of_le' hfuel
    have hroom : ∀ r b, ('\n' : UInt8) ∉ r → (∀ l ∈ allLines (r ++ b), l.length < lineBufferSize) →
        r.length < lineBufferSize := fun r b hr hb => by
      obtain ⟨l, hl, hpre⟩ := exists_line_of_notMem hr b
      exact Nat.lt_of_le_of_lt hpre.length_le (hb l hl)
    have havail : 0 < lineBufferSize - s.length := Nat.sub_pos_of_lt (hroom s rest hs hshort)
    obtain ⟨out, strm', rest', hlen, rfl, hcall⟩ := hz _ havail
    obtain ⟨left, hbuffer, hleft⟩ := @processBuffer_eq malloc (s ++ out) _ (Nat.le_refl _) ht
    have hnl := (notMem_split ('\n' : UInt8) (s ++ out)).2
    rw [← append_assoc, allLines_append] at hshort
    obtain ⟨-, hshort⟩ := forall_mem_append.1 hshort
    rw [← append_assoc, split_append, processLines_append]
    by_cases hok : (processLines malloc ht (split ('\n' : UInt8) (s ++ out)).1).2 = .ok
    · rw [if_pos hok]
      obtain rfl := hleft hok
      have hlt := hroom _ _ hnl hshort
      rcases hcall with ⟨hcall, rfl⟩ | ⟨hcall, hz'⟩
      · rw [append_nil, split_last hnl]
        simp only [gzipLoop, hcall, hbuffer, hok, ne_eq, not_true, if_false, if_true]
        rfl
      · simp only [gzipLoop, hcall, hbuffer, hok, ne_eq, not_true, if_false, reduceCtorEq]
        rw [if_neg (Nat.ne_of_lt hlt)]
        exact ih hz' hnl hshort _ (Nat.le_of_succ_le_succ hfuel)
    · rw [if_neg hok]
      rcases hcall with ⟨hcall, -⟩ | ⟨hcall, -⟩
      · simp only [gzipLoop, hcall, hbuffer, ne_eq, hok, not_false_iff, if_true]
      · simp only [gzipLoop, hcall, hbuffer, ne_eq, hok, not_false_iff, if_true]

/-! ## Files -/

theorem gzgets_line {l : Bytes} (hl : ('\n' : UInt8) ∉ l) (hlen : l.length < lineBufferSize - 1)
    (t : Bytes) : gzgets lineBufferSize (l ++ ('\n' : UInt8) :: t) = some (l ++ [('\n' : UInt8)], t) := by
  have hmin : min (lineBufferSize - 1) (l.length + 1) = (l ++ [('\n' : UInt8)]).length := by
    rw [length_append, length_singleton]
    omega
  have hcat : l ++ ('\n' : UInt8) :: t = l ++ [('\n' : UInt8)] ++ t := by
    rw [append_assoc, singleton_append]
  simp only [gzgets, (takeWhile_ne_append hl t).1, hmin]
  rw [if_neg (by simp), hcat, take_left, drop_left]

theorem gzgets_last {r : Bytes} (hr : ('\n' : UInt8) ∉ r) (hne : r ≠ [])
    (hlen : r.length < lineBufferSize - 1) : gzgets lineBufferSize r = some (r, []) := by
  have hline : r.takeWhile (· ≠ ('\n' : UInt8)) = r :=
    takeWhile_eq_self_iff.2 fun c hc => decide_eq_true fun he => hr (he ▸ hc)
  have hmin : min (lineBufferSize - 1) (r.length + 1) = r.length + 1 := by omega
  simp only [gzgets, hline, hmin, if_neg hne]
  rw [take_of_length_le (Nat.le_succ _), drop_of_length_le (Nat.le_succ _)]

theorem fileLoop_eq {text : Bytes} (hnul : 0 ∉ text)
    (hshort : ∀ l ∈ allLines text, l.length < lineBufferSize - 1) (ht : HashTable) {fuel : Nat}
    (hfuel : text.length < fuel) :
    fileLoop malloc ht fuel text = processLines malloc ht
      ((split ('\n' : UInt8) text).1 ++ [(split ('\n' : UInt8) text).2.dropLast]) := by
  induction text using Lines.induction ('\n' : UInt8) generalizing ht fuel with
  | last r hr =>
    obtain ⟨fuel, rfl⟩ := Nat.exists_eq_add_one_of_ne_zero (Nat.ne_of_gt (Nat.zero_lt_of_lt hfuel))
    rw [allLines, split_last hr] at hshort
    rw [split_last hr, nil_append, processLines_singleton]
    by_cases hne : r = []
    · rw [hne]
      rfl
    · have hget := gzgets_last hr hne (hshort r (mem_singleton_self r))
      have hend : ∀ ht, fileLoop malloc ht fuel [] = (ht, .ok) := fun ht => by cases fuel <;> rfl
      simp only [fileLoop, hget, cstr_eq_self hnul, dropLast_eq_take, hend]
      split
      · rfl
      · next h => exact Prod.ext rfl (not_not.1 h).symm
  | line l s hl ih =>
    obtain ⟨fuel, rfl⟩ := Nat.exists_eq_add_one_of_ne_zero (Nat.ne_of_gt (Nat.zero_lt_of_lt hfuel))
    rw [allLines, split_line hl, cons_append, forall_mem_cons] at hshort
    rw [mem_append, mem_cons, not_or, not_or] at hnul
    rw [length_append, length_cons] at hfuel
    have hread : 0 ∉ l ++ [('\n' : UInt8)] := by
      rw [mem_append, mem_singleton, not_or]
      exact ⟨hnul.1, hnul.2.1⟩
    have hstrip : (l ++ [('\n' : UInt8)]).take ((l ++ [('\n' : UInt8)]).length - 1) = l := by
      rw [← dropLast_eq_take, dropLast_concat]
    simp only [fileLoop, gzgets_line hl hshort.1, cstr_eq_self hread, hstrip, split_line hl, cons_append, processLines]
    split
    · rfl
    · exact ih hnul.2.2 hshort.2 _ (by omega)

/-! ## The last line -/

theorem dropWhile_dropLast (p : UInt8 → Bool) (s : Bytes) : s.dropLast.dropWhile p = (s.dropWhile p).dropLast := by
  induction s with
  | nil => rfl
  | cons c s ih =>
    cases s with
    | nil =>
      rw [dropWhile_cons]
      split <;> rfl
    | cons d s =>
      rw [dropLast_cons_cons, dropWhile_cons, dropWhile_cons, ih]
      split
      · rfl
      · rw [dropLast_cons_cons]

/-- The same status and the same mapping. -/
def SameResult (a b : HashTable × NsError) : Prop :=
  a.2 = b.2 ∧ ∀ key, 0 ∉ key → hashGet a.1 key = hashGet b.1 key

/-- A separator without key and value. -/
def LoneColon (ln : Bytes) : Bool := ln.dropWhile isBlank == [(':' : UInt8)]

theorem ignored_dropLast {r : Bytes} (h : Ignored r = true) : Ignored r.dropLast = true := by
  rw [Ignored] at h ⊢
  rw [dropWhile_dropLast]
  rcases hu : r.dropWhile isBlank with - | ⟨c, - | ⟨d, u⟩⟩
  · rfl
  · rfl
  · rw [hu] at h
    exact h

theorem ignored_cons {r : Bytes} {c : UInt8} {u : Bytes} (h : r.dropWhile isBlank = c :: u)
    (hnul : c ≠ 0) (hhash : c ≠ '#') : Ignored r = false := by
  simp only [Ignored, h, Bool.or_eq_false_iff, beq_eq_false_iff_ne]
  exact ⟨hnul, hhash⟩

theorem processLine_separated {ln key value : Bytes}
    (h : ln.dropWhile isBlank = key ++ (':' : UInt8) :: value) (hcolon : (':' : UInt8) ∉ key)
    (hnul : 0 ∉ ln) (hhash : key.head? ≠ some ('#' : UInt8)) (ht : HashTable) :
    processLine malloc ht ln = hashAdd malloc ht key value := by
  have hmem : ∀ d ∈ key ++ (':' : UInt8) :: value, d ≠ 0 := fun d hd he =>
    hnul (he ▸ (dropWhile_sublist isBlank).subset (h ▸ hd))
  obtain ⟨htake, hdrop⟩ := takeWhile_ne_append hcolon value
  have hkey : 0 ∉ key := fun h0 => hmem 0 (mem_append_left _ h0) rfl
  have hvalue : 0 ∉ value := fun h0 =>
    hmem 0 (mem_append_right _ (mem_cons_of_mem _ h0)) rfl
  have hkv : keyValue ln = some (key, value) := by
    rw [keyValue, h, htake, hdrop]
    simp only [cstr_eq_self hkey, cstr_eq_self hvalue]
  have hi : Ignored ln = false := by
    cases key with
    | nil => exact ignored_cons h (by decide) (by decide)
    | cons c key => exact ignored_cons h (hmem c mem_cons_self) fun he => hhash (he ▸ rfl)
  rw [processLine_eq, hi, hkv]
  rfl

theorem processLine_invalid {ln : Bytes} {c : UInt8} {u : Bytes} (h : ln.dropWhile isBlank = c :: u)
    (hcolon : (':' : UInt8) ∉ c :: u) (hnul : 0 ∉ ln) (hhash : c ≠ '#') (ht : HashTable) :
    processLine malloc ht ln = (ht, .invalid) := by
  have hc : c ≠ 0 := fun he =>
    hnul (he ▸ (dropWhile_sublist isBlank).subset (h ▸ mem_cons_self))
  have hdrop : (c :: u).dropWhile (· ≠ (':' : UInt8)) = [] :=
    dropWhile_eq_nil_iff.2 fun d hd => decide_eq_true fun he => hcolon (he ▸ hd)
  have hkv : keyValue ln = none := by
    rw [keyValue, h, hdrop]
  rw [processLine_eq, ignored_cons h hc hhash, hkv]
  rfl

theorem not_sameResult_hashAdd {ht : HashTable} (hpos : 0 < ht.nchains) {key v w : Bytes}
    (hv : Granted malloc key v = true) (hkey : 0 ∉ key) (hne : v ≠ w) :
    ¬ SameResult (hashAdd malloc ht key v) (hashAdd malloc ht key w) := by
  rintro ⟨hstatus, hget⟩
  have hw : Granted malloc key w = true := by
    rw [← @hashAdd_snd malloc ht, ← hstatus, hashAdd_snd, hv]
  have hkey := hget key hkey
  rw [hashGet_hashAdd hpos hv, hashGet_hashAdd hpos hw, if_pos rfl, if_pos rfl] at hkey
  exact hne (Option.some.inj hkey)

theorem sameResult_last_iff {ht : HashTable} (hpos : 0 < ht.nchains) {r : Bytes} (hnul : 0 ∉ r) :
    SameResult (processLine malloc ht r) (ht, .ok) ∧
        SameResult (processLine malloc ht r) (processLine malloc ht r.dropLast) ↔
      Ignored r = true ∨ LoneColon r = true ∧ Granted malloc [] [] = true ∧ hashGet ht [] = some [] := by
  have hnul' : 0 ∉ r.dropLast := fun h => hnul (dropLast_subset r h)
  by_cases hi : Ignored r = true
  · have hkeep : ∀ s, Ignored s = true → processLine malloc ht s = (ht, .ok) := fun s hs => by
      rw [processLine_eq, if_pos hs]
    rw [hkeep r hi, hkeep _ (ignored_dropLast hi)]
    exact iff_of_true ⟨⟨rfl, fun _ _ => rfl⟩, rfl, fun _ _ => rfl⟩ (Or.inl hi)
  rw [or_iff_right hi]
  obtain ⟨c, u, hu, hhash⟩ : ∃ c u, r.dropWhile isBlank = c :: u ∧ c ≠ '#' := by
    rw [Ignored] at hi
    rcases hu : r.dropWhile isBlank with - | ⟨c, u⟩
    · simp [hu] at hi
    · refine ⟨c, u, rfl, fun hc => hi ?_⟩
      simp [hu, hc]
  by_cases hcolon : (':' : UInt8) ∈ c :: u
  swap
  · -- The line is invalid, and dropping it is not noticed.
    rw [processLine_invalid hu hcolon hnul hhash]
    refine iff_of_false (fun h => by cases h.1.1) ?_
    rintro ⟨hlone, -⟩
    rw [LoneColon, hu, beq_iff_eq] at hlone
    exact hcolon (hlone ▸ mem_singleton_self _)
  obtain ⟨key, value, hsplit, hkey⟩ := eq_append_cons_of_mem hcolon
  have hu' : r.dropWhile isBlank = key ++ (':' : UInt8) :: value := hu.trans hsplit
  have hhead : key.head? ≠ some ('#' : UInt8) := by
    cases key with
    | nil => simp
    | cons d key =>
      cases hsplit
      exact fun he => hhash (Option.some.inj he)
  have hkeynul : 0 ∉ key := fun h0 => hnul ((dropWhile_sublist isBlank).subset (hu' ▸ mem_append_left _ h0))
  rw [processLine_separated hu' hkey hnul hhead]
  have hlone : LoneColon r = true ↔ key = [] ∧ value = [] := by
    rw [LoneColon, hu', beq_iff_eq]
    cases key <;> simp
  rw [hlone]
  by_cases hg : Granted malloc key value = true
  swap
  · rw [hashAdd_refused (Bool.eq_false_of_not_eq_true hg)]
    refine iff_of_false (fun h => by cases h.1.1) ?_
    rintro ⟨⟨rfl, rfl⟩, hg', -⟩
    exact hg hg'
  cases value with
  | cons d value =>
    -- The value loses its last byte.
    have hcut : r.dropLast.dropWhile isBlank = key ++ (':' : UInt8) :: (d :: value).dropLast := by
      rw [dropWhile_dropLast, hu', dropLast_append_of_ne_nil (cons_ne_nil _ _), dropLast_cons_cons]
    rw [processLine_separated hcut hkey hnul' hhead]
    refine iff_of_false (fun h => not_sameResult_hashAdd hpos hg hkeynul ?_ h.2) ?_
    · exact fun he => absurd (congrArg List.length he) (by simp)
    · rintro ⟨⟨-, hvalue⟩, -⟩
      exact cons_ne_nil _ _ hvalue
  | nil =>
    have hcut : r.dropLast.dropWhile isBlank = key := by
      rw [dropWhile_dropLast, hu', dropLast_concat]
    cases key with
    | cons d key =>
      -- The line loses its separator.
      cases hsplit
      rw [processLine_invalid hcut hkey hnul' hhash]
      refine iff_of_false (fun h => ?_) (by simp)
      have hok := h.2.1
      rw [hashAdd_snd.2 hg] at hok
      cases hok
    | nil =>
      have hdropped : processLine malloc ht r.dropLast = (ht, .ok) := by
        rw [processLine_eq, Ignored, hcut]
        rfl
      rw [hdropped, and_self]
      constructor
      · rintro ⟨-, hget⟩
        have hempty := hget [] not_mem_nil
        rw [hashGet_hashAdd hpos hg, if_pos rfl] at hempty
        exact ⟨⟨rfl, rfl⟩, hg, hempty.symm⟩
      · rintro ⟨-, -, hempty⟩
        refine ⟨hashAdd_snd.2 hg, fun k hk => ?_⟩
        rw [hashGet_hashAdd hpos hg]
        split
        · next h => rw [h, hempty]
        · rfl

/-! ## The three loaders -/

theorem hashGet_hashCreate (n : Nat) (key : Bytes) : hashGet (hashCreate n) key = none := by
  rw [hashGet, hashCreate]
  simp only [getD_eq_getElem?_getD, List.getElem?_replicate]
  split <;> rfl

theorem granted_of_lookup {ls : List Bytes} (h : ∀ l ∈ ls, Refused malloc l = false)
    {key value : Bytes} (hlookup : (entries ls).lookup key = some value) :
    Granted malloc key value = true := by
  obtain ⟨as, bs, hsplit, -⟩ := lookup_eq_some_iff.1 hlookup
  have hmem : (key, value) ∈ entries ls := by
    rw [hsplit]
    exact mem_append_right _ mem_cons_self
  rw [entries, mem_reverse, mem_filterMap] at hmem
  obtain ⟨l, hl, hentry⟩ := hmem
  have hl := h l hl
  rw [entryOf] at hentry
  rw [Refused] at hl
  split at hentry
  · cases hentry
  · next hi => simpa [hi, hentry] using hl

/-- A text whose last line, if it has no line end, is blank, a comment, or behind a line that is refused;
or a lone colon that repeats what an earlier line says. -/
def LastLineHarmless (malloc : Nat → Bool) (text : Bytes) : Prop :=
  Ignored (split ('\n' : UInt8) text).2 = true ∨
    (∃ l ∈ (split ('\n' : UInt8) text).1, Refused malloc l = true) ∨
    LoneColon (split ('\n' : UInt8) text).2 = true ∧
      (entries (split ('\n' : UInt8) text).1).lookup [] = some []

theorem processLines_agree_iff {n : Nat} (hn : 0 < n) {text : Bytes} (hnul : 0 ∉ text) :
    SameResult (processLines malloc (hashCreate n) (allLines text))
          (processLines malloc (hashCreate n) (split ('\n' : UInt8) text).1) ∧
        SameResult (processLines malloc (hashCreate n) (allLines text)) (processLines malloc (hashCreate n)
            ((split ('\n' : UInt8) text).1 ++ [(split ('\n' : UInt8) text).2.dropLast])) ↔
      LastLineHarmless malloc text := by
  have hnul' : 0 ∉ (split ('\n' : UInt8) text).2 := fun h => hnul (by
    rw [← flatten_split ('\n' : UInt8) text]
    exact mem_append_right _ h)
  have hpos : 0 < (hashCreate n).nchains := by
    rw [HashTable.nchains, hashCreate, length_replicate]
    exact hn
  rw [allLines, LastLineHarmless, processLines_append, processLines_append]
  generalize (split ('\n' : UInt8) text).1 = ls
  generalize (split ('\n' : UInt8) text).2 = r at hnul'
  by_cases hall : ∀ l ∈ ls, Refused malloc l = false
  · have hok := (processLines_snd (hashCreate n) ls).2 hall
    have hpos' : 0 < (processLines malloc (hashCreate n) ls).1.nchains := by
      rw [nchains_processLines]
      exact hpos
    have hpre : processLines malloc (hashCreate n) ls =
        ((processLines malloc (hashCreate n) ls).1, .ok) := Prod.ext rfl hok
    have hget : hashGet (processLines malloc (hashCreate n) ls).1 [] = (entries ls).lookup [] := by
      rw [hashGet_processLines hpos hall, hashGet_hashCreate, Option.or_none]
    have hlast := @sameResult_last_iff malloc _ hpos' r hnul'
    rw [← hpre, hget] at hlast
    rw [if_pos hok, if_pos hok, processLines_singleton, processLines_singleton, hlast]
    refine or_congr_right ⟨fun h => Or.inr ⟨h.1, h.2.2⟩, ?_⟩
    rintro (⟨l, hl, href⟩ | ⟨hlone, hlookup⟩)
    · rw [hall l hl] at href
      cases href
    · exact ⟨hlone, granted_of_lookup hall hlookup, hlookup⟩
  · have hbad : (processLines malloc (hashCreate n) ls).2 ≠ .ok := fun hok =>
      hall ((processLines_snd _ ls).1 hok)
    rw [if_neg hbad, if_neg hbad]
    refine iff_of_true ⟨⟨rfl, fun _ _ => rfl⟩, rfl, fun _ _ => rfl⟩ (Or.inr (Or.inl ?_))
    simpa using hall

/-- The three loaders give the same status and the same mapping if and only if the last line is
harmless: the file loader cuts the last byte off a line that has no line end, and the compressed one drops
such a line. -/
theorem loaders_agree_iff (malloc : Nat → Bool) (Z : Zlib) {n : Nat} (hn : 0 < n)
    {text beyond : Bytes} (hnul : 0 ∉ text) (hshort : ∀ l ∈ allLines text, l.length < 511)
    (hplain : isGzip (text ++ beyond) = false) {gz beyondGz : Bytes} (hgz : isGzip gz = true)
    {strm : Z.Stream} (hinit : Z.inflateInit gz = some strm) {calls : Nat}
    (hinflate : Z.Decompresses calls strm text) {fuel : Nat} (hfuel : calls ≤ fuel) :
    ∃ plain gzip,
      hashAddInline malloc Z fuel (hashCreate n) (text ++ beyond) text.length = some plain ∧
      hashAddInline malloc Z fuel (hashCreate n) (gz ++ beyondGz) gz.length = some gzip ∧
      (SameResult plain gzip ∧
          SameResult plain (hashAddFile malloc (hashCreate n) (some (some text))) ↔
        LastLineHarmless malloc text) := by
  have hgz' : isGzip (gz ++ beyondGz) = true := by
    rcases gz with - | ⟨a, - | ⟨b, gz⟩⟩
    · simp [isGzip] at hgz
    · simp [isGzip] at hgz
    · exact hgz
  have hbuffer : ∀ l ∈ allLines text, l.length < lineBufferSize := fun l hl =>
    Nat.lt_trans (hshort l hl) (by decide)
  refine ⟨processLines malloc (hashCreate n) (allLines text),
    processLines malloc (hashCreate n) (split ('\n' : UInt8) text).1, ?_, ?_, ?_⟩
  · rw [hashAddInline, hplain, if_neg Bool.false_ne_true, take_left,
      hashAddInlinePlain_eq fun l hl => Nat.le_of_lt (hbuffer l hl)]
  · rw [hashAddInline, hgz', if_pos rfl, take_left, hashAddInlineGzip, hinit]
    exact gzipLoop_eq hinflate not_mem_nil hbuffer (hashCreate n) hfuel
  · rw [hashAddFile, fileLoop_eq hnul hshort (hashCreate n) (Nat.lt_succ_self _)]
    exact processLines_agree_iff hn hnul

/-! ## Two texts -/

/-- The compressions of a text with and without the last line end. -/
def sampleGzips : List (Bytes × Bytes) :=
  [([31, 139, 8, 0, 0, 0, 0, 0, 2, 3, 75, 180, 74, 226, 2, 0, 7, 207, 60, 60, 4, 0, 0, 0], str "a:b\n"),
    ([31, 139, 8, 0, 0, 0, 0, 0, 2, 3, 75, 180, 74, 2, 0, 8, 166, 65, 48, 3, 0, 0, 0], str "a:b")]

/-- zlib on these two. -/
def sampleZlib : Zlib where
  Stream := Bytes
  inflateInit data := sampleGzips.lookup data
  inflate s avail :=
    if s.length ≤ avail then (.streamEnd, s, []) else (.ok, s.take avail, s.drop avail)

theorem sampleZlib_decompresses {n : Nat} {s : Bytes} (h : s.length < n) : sampleZlib.Decompresses n s s := by
  induction n generalizing s with
  | zero => exact absurd h (Nat.not_lt_zero _)
  | succ n ih =>
    intro avail havail
    by_cases hfit : s.length ≤ avail
    · exact ⟨s, [], [], hfit, (append_nil s).symm, Or.inl ⟨if_pos hfit, rfl⟩⟩
    · refine ⟨s.take avail, s.drop avail, s.drop avail, by rw [length_take]; omega,
        (take_append_drop avail s).symm, Or.inr ⟨if_neg hfit, ih ?_⟩⟩
      rw [length_drop]
      omega

theorem loaders_agree_terminated :
    ∃ plain gzip,
      hashAddInline (fun _ => true) sampleZlib 5 (hashCreate 79) (str "a:b\n" ++ []) 4 = some plain ∧
      hashAddInline (fun _ => true) sampleZlib 5 (hashCreate 79) (sampleGzips[0].1 ++ [])
        (sampleGzips[0].1).length = some gzip ∧
      (SameResult plain gzip ∧
          SameResult plain (hashAddFile (fun _ => true) (hashCreate 79) (some (some (str "a:b\n")))) ↔
        LastLineHarmless (fun _ => true) (str "a:b\n")) :=
  loaders_agree_iff (fun _ => true) sampleZlib (by decide) (by decide) (by decide +kernel) rfl rfl rfl
    (sampleZlib_decompresses (by decide)) (Nat.le_refl _)

/-- Without the last line end one text gives three tables. -/
theorem loaders_differ_unterminated :
    (hashAddInline (fun _ => true) sampleZlib 5 (hashCreate 79) (str "a:b") 3).map
        (fun r => (r.2, hashGet r.1 (str "a"))) = some (.ok, some (str "b")) ∧
      (hashAddInline (fun _ => true) sampleZlib 5 (hashCreate 79) sampleGzips[1].1
        (sampleGzips[1].1).length).map (fun r => (r.2, hashGet r.1 (str "a"))) = some (.ok, none) ∧
      (hashAddFile (fun _ => true) (hashCreate 79) (some (some (str "a:b")))).2 = .ok ∧
      hashGet (hashAddFile (fun _ => true) (hashCreate 79) (some (some (str "a:b")))).1 (str "a") =
        some [] := by
  decide +kernel

end Nami.Hashtable
