import Nami.Mimesniff.Basic

/-!
# Sniffing stays within the data

Everything that is looked at is guarded by the length of the data, but for the brands of a box whose size is 0:
there the loop goes on until it finds an `mp4` brand, whatever the length is.
-/

namespace Nami.Mimesniff

open List
open Ascii

variable {α β : Type} {data sig : Bytes} {len fuel i : Nat}

/-! ## Reads -/

/-- All reads are within the data, and all loops end. -/
def Returns (m : Except Trap α) : Prop := ∃ r, m = .ok r

@[simp] theorem ok_bind (a : α) (f : α → Except Trap β) : (Except.ok a >>= f) = f a := rfl

@[simp] theorem error_bind (e : Trap) (f : α → Except Trap β) : (Except.error e >>= f) = .error e := rfl

@[simp] theorem pure_eq_ok (a : α) : (pure a : Except Trap α) = .ok a := rfl

theorem returns_ok (a : α) : Returns (.ok a) := ⟨a, rfl⟩

theorem not_returns_error (e : Trap) : ¬ Returns (.error e : Except Trap α) := fun ⟨_, h⟩ => nomatch h

theorem Returns.bind {m : Except Trap α} {f : α → Except Trap β} (hm : Returns m) (hf : ∀ a, Returns (f a)) :
    Returns (m >>= f) := by
  obtain ⟨a, rfl⟩ := hm
  exact hf a

theorem Returns.ite {p : Prop} [Decidable p] {m m' : Except Trap α} (h : p → Returns m) (h' : ¬ p → Returns m') :
    Returns (if p then m else m') := by
  by_cases hp : p
  · rw [if_pos hp]
    exact h hp
  · rw [if_neg hp]
    exact h' hp

theorem returns_read (h : i < data.length) : Returns (read data i) := by
  unfold read
  rw [List.getElem?_eq_getElem h]
  exact returns_ok _

theorem startsWith_eq (h : len ≤ data.length) :
    startsWith data len sig = .ok (decide (sig.length ≤ len) && sig.isPrefixOf data) := by
  unfold startsWith memcmp
  by_cases hsig : sig.length ≤ len
  · rw [if_pos hsig, if_pos (hsig.trans h), decide_eq_true hsig, Bool.true_and]
  · rw [if_neg hsig, decide_eq_false hsig, Bool.false_and]

theorem returns_memcmp (h : sig.length ≤ data.length) : Returns (memcmp data sig) := by
  unfold memcmp
  rw [if_pos h]
  exact returns_ok _

theorem length_drop_ge (n : Nat) (h : len ≤ data.length) : len - n ≤ (data.drop n).length := by
  rw [length_drop]
  omega

/-! ## Signatures -/

theorem returns_hasBinaryOctets : ∀ {len : Nat} {data : Bytes}, len ≤ data.length → Returns (hasBinaryOctets data len)
  | 0, data, _ => by
    unfold hasBinaryOctets
    exact returns_ok _
  | len + 1, data, h => by
    unfold hasBinaryOctets
    refine (returns_read (by omega)).bind fun c => .ite (fun _ => returns_ok _) fun _ => ?_
    exact returns_hasBinaryOctets (length_drop_ge 1 h)

theorem firstMatch_eq (allowUnsafe : Bool) (signatures : List Signature) (h : len ≤ data.length) :
    firstMatch data len allowUnsafe signatures = .ok ((signatures.find? fun it =>
      decide (it.sig.length ≤ len) && it.sig.isPrefixOf data && (allowUnsafe || it.safe)).map (·.type)) := by
  induction signatures with
  | nil => rfl
  | cons it signatures ih =>
    unfold firstMatch
    rw [startsWith_eq h, ok_bind, List.find?_cons]
    cases (decide (it.sig.length ≤ len) && it.sig.isPrefixOf data && (allowUnsafe || it.safe)) with
    | true => rfl
    | false => simpa using ih

theorem returns_matchesRiff (h : len ≤ data.length) : Returns (matchesRiff data len sig) := by
  unfold matchesRiff
  refine .ite (fun hlen => ?_) fun _ => returns_ok _
  have hriff : (str "RIFF").length ≤ data.length := by
    have : (str "RIFF").length = 4 := rfl
    omega
  refine (returns_memcmp hriff).bind fun b => .ite (fun _ => ?_) fun _ => returns_ok _
  exact returns_memcmp (by rw [length_drop]; omega)

theorem returns_firstRiffMatch (signatures : List Signature) (h : len ≤ data.length) :
    Returns (firstRiffMatch data len signatures) := by
  induction signatures with
  | nil => exact returns_ok _
  | cons it signatures ih =>
    unfold firstRiffMatch
    exact (returns_matchesRiff h).bind fun b => .ite (fun _ => returns_ok _) fun _ => ih

theorem skipLeadingSpace_spec : ∀ {len : Nat} {data : Bytes}, len ≤ data.length →
    ∃ data' len', skipLeadingSpace data len = .ok (data', len') ∧ len' ≤ data'.length
  | 0, data, h => ⟨data, 0, by unfold skipLeadingSpace; rfl, h⟩
  | len + 1, data, h => by
    obtain ⟨c, hc⟩ := returns_read (show 0 < data.length by omega)
    unfold skipLeadingSpace
    rw [hc, ok_bind]
    split
    · exact skipLeadingSpace_spec (length_drop_ge 1 h)
    · exact ⟨data, len + 1, rfl, h⟩

theorem returns_firstInexactMatch (signatures : List Signature) (h : len ≤ data.length) :
    Returns (firstInexactMatch data len signatures) := by
  induction signatures with
  | nil => exact returns_ok _
  | cons it signatures ih =>
    unfold firstInexactMatch
    refine .ite (fun hlen => ?_) fun _ => ih
    have hcase : Returns (strncasecmp data it.sig) := by
      unfold strncasecmp
      rw [if_pos (by omega)]
      exact returns_ok _
    refine hcase.bind fun b => .ite (fun _ => ?_) fun _ => ih
    exact (returns_read (by omega)).bind fun c => .ite (fun _ => returns_ok _) fun _ => ih

theorem returns_matchUnknownWs (h : len ≤ data.length) : Returns (matchUnknownWs data len) := by
  obtain ⟨data', len', hskip, hlen⟩ := skipLeadingSpace_spec h
  unfold matchUnknownWs
  rw [hskip, ok_bind]
  refine .ite (fun _ => returns_ok _) fun _ => ?_
  rw [firstMatch_eq _ _ hlen, ok_bind]
  split
  · exact returns_ok _
  · exact returns_firstInexactMatch _ hlen

/-! ## The brands of a box -/

/-- There is a brand at an index. -/
def Brand (data : Bytes) (i : Nat) : Prop := str "mp4" <+: data.drop i

/-- The data ends while an index is looked at. -/
def Cut (data : Bytes) (i : Nat) : Prop := data.drop i <+: str "mp"

theorem Brand.length (h : Brand data i) : i + 3 ≤ data.length := by
  have hlen := List.IsPrefix.length_le h
  have hthree : (str "mp4").length = 3 := rfl
  rw [length_drop] at hlen
  omega

theorem not_cut_of_length (h : i + 3 ≤ data.length) : ¬ Cut data i := by
  intro hcut
  have hlen := List.IsPrefix.length_le hcut
  have htwo : (str "mp").length = 2 := rfl
  rw [length_drop] at hlen
  omega

theorem read_add (i j : Nat) : read data (i + j) = read (data.drop i) j := by
  unfold read
  rw [List.getElem?_drop]

theorem brandLoop_succ {limit : Nat} (h : i ≤ limit) :
    (Cut data i → brandLoop data limit (fuel + 1) i = .error .outOfBounds) ∧
    (Brand data i → brandLoop data limit (fuel + 1) i = .ok (some (str "video/mp4"))) ∧
    (¬ Cut data i → ¬ Brand data i →
      brandLoop data limit (fuel + 1) i = brandLoop data limit fuel ((i + 4) % 4294967296)) := by
  have hzero : read data i = read (data.drop i) 0 := read_add i 0
  have hmp : str "mp" = [109, 112] := rfl
  have hmp4 : str "mp4" = [109, 112, 52] := rfl
  have hround : brandLoop data limit (fuel + 1) i = (do
      if (← read (data.drop i) 0) == 109 then
        if (← read (data.drop i) 1) == 112 then
          if (← read (data.drop i) 2) == 52 then
            return some (str "video/mp4")
      brandLoop data limit fuel ((i + 4) % 4294967296)) := by
    rw [← read_add i 1, ← read_add i 2, ← hzero]
    conv_lhs => unfold brandLoop
    rw [if_pos h]
    rfl
  rw [hround]
  unfold Cut Brand
  rw [hmp, hmp4]
  rcases data.drop i with _ | ⟨a, _ | ⟨b, _ | ⟨c, rest⟩⟩⟩
  · simp [read]
  · by_cases ha : a = 109 <;> simp [read, ha]
  · by_cases ha : a = 109 <;> by_cases hb : b = 112 <;> simp [read, ha, hb]
  · by_cases ha : a = 109 <;> by_cases hb : b = 112 <;> by_cases hc : c = 52 <;>
      simp [read, ha, hb, hc, @eq_comm UInt8 52, @eq_comm UInt8 109, @eq_comm UInt8 112]

/-- The indices that are looked at in a box whose size is 0. They have 32 bits. -/
def boxIndex (k : Nat) : Nat := (16 + 4 * k) % 4294967296

theorem boxIndex_succ (k : Nat) : (boxIndex k + 4) % 4294967296 = boxIndex (k + 1) := by
  unfold boxIndex
  omega

theorem boxIndex_le (k : Nat) : boxIndex k ≤ 4294967292 := by
  unfold boxIndex
  omega

theorem brandLoop_returns_iff {k : Nat} : (∃ fuel, Returns (brandLoop data 4294967292 fuel (boxIndex k))) ↔
      ∃ m, k ≤ m ∧ Brand data (boxIndex m) ∧ ∀ j, k ≤ j → j < m → ¬ Cut data (boxIndex j) := by
  constructor
  · rintro ⟨fuel, h⟩
    induction fuel generalizing k with
    | zero => exact absurd h (not_returns_error _)
    | succ fuel ih =>
      obtain ⟨hcut, -, hnext⟩ := @brandLoop_succ data fuel _ _ (boxIndex_le k)
      by_cases hc : Cut data (boxIndex k)
      · rw [hcut hc] at h
        exact absurd h (not_returns_error _)
      · by_cases hb : Brand data (boxIndex k)
        · exact ⟨k, Nat.le_refl k, hb, fun j hle hlt => absurd hle (Nat.not_le_of_lt hlt)⟩
        · rw [hnext hc hb, boxIndex_succ] at h
          obtain ⟨m, hle, hbrand, hfree⟩ := ih h
          refine ⟨m, Nat.le_of_succ_le hle, hbrand, fun j hj hlt => ?_⟩
          rcases Nat.eq_or_lt_of_le hj with rfl | hj
          · exact hc
          · exact hfree j hj hlt
  · rintro ⟨m, hle, hbrand, hfree⟩
    obtain ⟨n, rfl⟩ := Nat.exists_eq_add_of_le hle
    induction n generalizing k with
    | zero =>
      refine ⟨1, ?_⟩
      rw [(brandLoop_succ (boxIndex_le k)).2.1 hbrand]
      exact returns_ok _
    | succ n ih =>
      by_cases hb : Brand data (boxIndex k)
      · refine ⟨1, ?_⟩
        rw [(brandLoop_succ (boxIndex_le k)).2.1 hb]
        exact returns_ok _
      · have hindex : k + (n + 1) = k + 1 + n := by omega
        rw [hindex] at hbrand hfree
        obtain ⟨fuel, hrest⟩ := ih (Nat.le_add_right _ _) hbrand fun j hj hlt =>
          hfree j (Nat.le_of_succ_le hj) hlt
        have hnext := (@brandLoop_succ data fuel _ _ (boxIndex_le k)).2.2 (hfree k (Nat.le_refl k) (by omega)) hb
        refine ⟨fuel + 1, ?_⟩
        rw [hnext, boxIndex_succ]
        exact hrest

/-- The header of a box whose size is 0, whose major brand is not `mp4`. -/
structure ZeroBox (data : Bytes) : Prop where
  length : 12 ≤ data.length
  size : [0, 0, 0, 0] <+: data
  type : str "ftyp" <+: data.drop 4
  major : ¬ Brand data 8

/-- No brand is found before the data ends or the indices come round again. -/
structure OpenBox (data : Bytes) : Prop extends ZeroBox data where
  brands : ∀ i, 16 ≤ i → i % 4 = 0 → i < 4294967296 → ¬ Brand data i
  minor : ¬ (Brand data 12 ∧ ∀ i, 16 ≤ i → i % 4 = 0 → i < 4294967296 → ¬ Cut data i)

theorem ZeroBox.not_brand (h : ZeroBox data) : ¬ Brand data 0 ∧ ¬ Brand data 4 := by
  have hzero : str "mp4" <+: data → False := by
    intro hb
    have := prefix_of_prefix_length_le (hb) h.size (by decide)
    revert this
    decide
  have hfour : str "mp4" <+: data.drop 4 → False := by
    intro hb
    have := prefix_of_prefix_length_le hb h.type (by decide)
    revert this
    decide
  exact ⟨hzero, hfour⟩

theorem ZeroBox.brandLoop_returns_iff (h : ZeroBox data) :
    (∃ fuel, Returns (brandLoop data 4294967292 fuel 16)) ↔ ¬ OpenBox data := by
  have hstart : boxIndex 0 = 16 := rfl
  rw [← hstart, Mimesniff.brandLoop_returns_iff]
  have hopen : ¬ OpenBox data ↔
      (∃ i, 16 ≤ i ∧ i % 4 = 0 ∧ i < 4294967296 ∧ Brand data i) ∨
        (Brand data 12 ∧ ∀ i, 16 ≤ i → i % 4 = 0 → i < 4294967296 → ¬ Cut data i) := by
    constructor
    · intro hnot
      by_contra hne
      rw [not_or] at hne
      exact hnot ⟨h, fun i h1 h2 h3 hb => hne.1 ⟨i, h1, h2, h3, hb⟩, hne.2⟩
    · rintro (⟨i, h1, h2, h3, hb⟩ | hminor) hopen
      · exact hopen.brands i h1 h2 h3 hb
      · exact hopen.minor hminor
  rw [hopen]
  constructor
  · rintro ⟨m, -, hbrand, hfree⟩
    by_cases hlarge : 16 ≤ boxIndex m
    · refine .inl ⟨boxIndex m, hlarge, ?_, ?_, hbrand⟩
      · unfold boxIndex
        omega
      · unfold boxIndex
        omega
    · -- the indices have come round: only the minor version is left
      have hcases : boxIndex m = 0 ∨ boxIndex m = 4 ∨ boxIndex m = 8 ∨ boxIndex m = 12 := by
        unfold boxIndex at hlarge ⊢
        omega
      rcases hcases with heq | heq | heq | heq
      · rw [heq] at hbrand
        exact absurd hbrand h.not_brand.1
      · rw [heq] at hbrand
        exact absurd hbrand h.not_brand.2
      · rw [heq] at hbrand
        exact absurd hbrand h.major
      · rw [heq] at hbrand
        refine .inr ⟨hbrand, fun i h1 h2 h3 => ?_⟩
        have hindex : boxIndex ((i - 16) / 4) = i := by
          unfold boxIndex
          omega
        have hbefore : (i - 16) / 4 < m := by
          unfold boxIndex at heq
          omega
        have := hfree ((i - 16) / 4) (Nat.zero_le _) hbefore
        rwa [hindex] at this
  · rintro (⟨i, h1, h2, h3, hb⟩ | ⟨hminor, hfree⟩)
    · refine ⟨(i - 16) / 4, Nat.zero_le _, ?_, fun j _ hj => not_cut_of_length ?_⟩
      · have hindex : boxIndex ((i - 16) / 4) = i := by
          unfold boxIndex
          omega
        rwa [hindex]
      · have := hb.length
        unfold boxIndex
        omega
    · refine ⟨1073741823, Nat.zero_le _, hminor, fun j _ hj => ?_⟩
      by_cases hlarge : 16 ≤ boxIndex j
      · refine hfree _ hlarge ?_ ?_
        · unfold boxIndex
          omega
        · unfold boxIndex
          omega
      · have := h.length
        apply not_cut_of_length
        unfold boxIndex at hlarge ⊢
        omega

theorem brandLoop_bounded {limit : Nat} (hlimit : limit < 4294967292) (hlen : limit + 4 ≤ data.length)
    (hmod : limit % 4 = 0) : ∀ {n i : Nat}, i % 4 = 0 → limit + 4 ≤ i + 4 * n → Returns (brandLoop data limit (n + 1) i)
  | 0, i, _, hn => by
    unfold brandLoop
    rw [if_neg (by omega)]
    exact returns_ok _
  | n + 1, i, hi, hn => by
    by_cases hle : i ≤ limit
    · obtain ⟨-, hfound, hnext⟩ := @brandLoop_succ data (n + 1) i limit hle
      by_cases hb : Brand data i
      · rw [hfound hb]
        exact returns_ok _
      · rw [hnext (not_cut_of_length (by omega)) hb, Nat.mod_eq_of_lt (by omega)]
        exact brandLoop_bounded hlimit hlen hmod (by omega) (by omega)
    · unfold brandLoop
      rw [if_neg hle]
      exact returns_ok _

theorem memcmp_eq (h : sig.length ≤ data.length) : memcmp data sig = .ok (sig.isPrefixOf data) := if_pos h

theorem boxSize_lt (a b c d : UInt8) : boxSize a b c d < 4294967296 := by
  have := a.toNat_lt
  have := b.toNat_lt
  have := c.toNat_lt
  have := d.toNat_lt
  unfold boxSize
  omega

theorem boxSize_eq_zero_iff (a b c d : UInt8) (rest : Bytes) :
    boxSize a b c d = 0 ↔ [0, 0, 0, 0] <+: a :: b :: c :: d :: rest := by
  have hzero : ∀ x : UInt8, x.toNat = 0 ↔ 0 = x := fun x => by
    rw [eq_comm, ← UInt8.toNat_inj]
    rfl
  unfold boxSize
  simp only [cons_prefix_cons, ← hzero, nil_prefix, and_true]
  omega

theorem matchBox_eq {size : Nat} (h : 12 ≤ data.length) : matchBox fuel data len size =
      if len < size ∨ size % 4 ≠ 0 then .ok none
      else if (str "ftyp").isPrefixOf (data.drop 4) = false then .ok none
      else if (str "mp4").isPrefixOf (data.drop 8) = true then .ok (some (str "video/mp4"))
      else brandLoop data ((size + 4294967292) % 4294967296) fuel 16 := by
  have hftyp : memcmp (data.drop 4) (str "ftyp") = .ok ((str "ftyp").isPrefixOf (data.drop 4)) :=
    memcmp_eq (show 4 ≤ (data.drop 4).length by rw [length_drop]; omega)
  have hmp4 : memcmp (data.drop 8) (str "mp4") = .ok ((str "mp4").isPrefixOf (data.drop 8)) :=
    memcmp_eq (show 3 ≤ (data.drop 8).length by rw [length_drop]; omega)
  unfold matchBox
  rw [hftyp, hmp4]
  rfl

theorem matchMp4_eq {a b c d : UInt8} {rest : Bytes} (h : ¬ len < 12) : matchMp4 fuel (a :: b :: c :: d :: rest) len =
      matchBox fuel (a :: b :: c :: d :: rest) len (boxSize a b c d) := by
  have hreads : read (a :: b :: c :: d :: rest) 0 = .ok a ∧ read (a :: b :: c :: d :: rest) 1 = .ok b ∧
      read (a :: b :: c :: d :: rest) 2 = .ok c ∧ read (a :: b :: c :: d :: rest) 3 = .ok d :=
    ⟨rfl, rfl, rfl, rfl⟩
  unfold matchMp4
  rw [if_neg h, hreads.1, hreads.2.1, hreads.2.2.1, hreads.2.2.2, ok_bind, ok_bind, ok_bind, ok_bind]

theorem matchMp4_returns_iff (hlen : len = min data.length 512) :
    (∃ fuel, Returns (matchMp4 fuel data len)) ↔ ¬ OpenBox data := by
  by_cases hshort : len < 12
  · refine iff_of_true ⟨0, ?_⟩ fun h => ?_
    · unfold matchMp4
      rw [if_pos hshort]
      exact returns_ok _
    · have := h.length
      omega
  · obtain ⟨a, b, c, d, rest, hdata⟩ : ∃ a b c d rest, data = a :: b :: c :: d :: rest := by
      match data, (show 4 ≤ data.length by omega) with
      | a :: b :: c :: d :: rest, _ => exact ⟨a, b, c, d, rest, rfl⟩
    have hlong : 12 ≤ data.length := by omega
    have hsize := boxSize_eq_zero_iff a b c d rest
    have hmatch : ∀ fuel, matchMp4 fuel data len = _ := fun fuel =>
      ((hdata ▸ matchMp4_eq hshort : matchMp4 fuel data len = matchBox fuel data len (boxSize a b c d))).trans
        (matchBox_eq hlong)
    rw [← hdata] at hsize
    have hlt := boxSize_lt a b c d
    simp only [hmatch]
    generalize boxSize a b c d = size at hsize hlt
    by_cases hbad : len < size ∨ size % 4 ≠ 0
    · simp only [if_pos hbad]
      refine iff_of_true ⟨0, returns_ok _⟩ fun h => ?_
      have := hsize.2 h.size
      omega
    · simp only [if_neg hbad]
      by_cases htype : (str "ftyp").isPrefixOf (data.drop 4) = false
      · simp only [if_pos htype]
        refine iff_of_true ⟨0, returns_ok _⟩ fun h => ?_
        have := isPrefixOf_iff_prefix.2 h.type
        rw [htype] at this
        cases this
      · simp only [if_neg htype]
        by_cases hmajor : (str "mp4").isPrefixOf (data.drop 8) = true
        · simp only [if_pos hmajor]
          exact iff_of_true ⟨0, returns_ok _⟩ fun h => h.major (List.isPrefixOf_iff_prefix.1 hmajor)
        · simp only [if_neg hmajor]
          by_cases hzero : size = 0
          · have hbox : ZeroBox data := {
              length := hlong
              size := hsize.1 hzero
              type := isPrefixOf_iff_prefix.1 (by simpa using htype)
              major := fun hb => hmajor (List.isPrefixOf_iff_prefix.2 hb) }
            have hlimit : (size + 4294967292) % 4294967296 = 4294967292 := by rw [hzero]
            rw [hlimit]
            exact hbox.brandLoop_returns_iff
          · have hlimit : (size + 4294967292) % 4294967296 = size - 4 := by omega
            rw [hlimit]
            refine iff_of_true ⟨data.length + 1, ?_⟩ fun h => hzero (hsize.2 h.size)
            exact brandLoop_bounded (by omega) (by omega) (by omega) (by decide) (by omega)

/-! ## Data of an unknown type -/

theorem ZeroBox.firstMatch_eq_none (h : ZeroBox data) (hlen : len ≤ data.length) {signatures : List Signature}
    (hsigs : ∀ it ∈ signatures, ¬ it.sig.take 8 <+: [0, 0, 0, 0] ++ str "ftyp") :
    firstMatch data len true signatures = .ok none := by
  obtain ⟨rest, hrest⟩ := h.size
  have htype := h.type
  rw [← hrest] at htype
  obtain ⟨rest', rfl⟩ : str "ftyp" <+: rest := htype
  rw [firstMatch_eq _ _ hlen, List.find?_eq_none.2 ?_]
  · rfl
  · intro it hit hmatch
    have hprefix : it.sig <+: data := by
      rw [← isPrefixOf_iff_prefix]
      revert hmatch
      cases it.sig.isPrefixOf data <;> simp
    rw [← hrest, ← append_assoc] at hprefix
    have height := hprefix.take 8
    rw [take_append_of_le_length (by decide)] at height
    exact hsigs it hit height

theorem ZeroBox.exact_eq_none (h : ZeroBox data) (hlen : len ≤ data.length) :
    matchUnknownExact data len true = .ok none :=
  h.firstMatch_eq_none hlen (by decide)

theorem ZeroBox.bom_eq_none (h : ZeroBox data) (hlen : len ≤ data.length) : matchUnknownBom data len = .ok none :=
  h.firstMatch_eq_none hlen (by decide)

theorem ZeroBox.not_riff (h : ZeroBox data) : matchesRiff data len sig = .ok false := by
  unfold matchesRiff
  split
  · have hfour : (str "RIFF").length ≤ data.length := (show 4 ≤ 12 by decide).trans h.length
    have hriff : (str "RIFF").isPrefixOf data = false := by
      rw [← Bool.not_eq_true, isPrefixOf_iff_prefix]
      intro hp
      have := prefix_of_prefix_length_le hp h.size (by decide)
      revert this
      decide
    rw [memcmp_eq hfour, hriff, ok_bind, if_neg Bool.false_ne_true]
  · rfl

theorem ZeroBox.riff_eq_none (h : ZeroBox data) : matchUnknownRiff data len = .ok none := by
  unfold matchUnknownRiff
  induction riffMatchTypes with
  | nil => rfl
  | cons it signatures ih =>
    unfold firstRiffMatch
    rw [h.not_riff, ok_bind, if_neg Bool.false_ne_true]
    exact ih

theorem ZeroBox.inexact_eq_none (h : ZeroBox data) (hlen : len ≤ data.length) {signatures : List Signature}
    (hsigs : ∀ it ∈ signatures, (lower it.sig).head? = some ('<' : UInt8)) :
    firstInexactMatch data len signatures = .ok none := by
  induction signatures with
  | nil => rfl
  | cons it signatures ih =>
    have hrest := ih fun it' hit => hsigs it' (mem_cons_of_mem it hit)
    have hhead := hsigs it mem_cons_self
    unfold firstInexactMatch
    by_cases hfits : it.sig.length + 1 ≤ len
    · have hcase : strncasecmp data it.sig = .ok false := by
        unfold strncasecmp
        rw [if_pos (by omega)]
        congr 1
        rw [beq_eq_false_iff_ne]
        intro heq
        rw [← heq] at hhead
        obtain ⟨rest, rfl⟩ := h.size
        unfold lower at hhead
        cases hsig : it.sig with
        | nil =>
          rw [hsig] at hhead
          cases hhead
        | cons c sig =>
          rw [hsig] at hhead
          have hbyte : some (toLower 0) = some ('<' : UInt8) := hhead
          exact absurd hbyte (by decide)
      rw [if_pos hfits, hcase, ok_bind, if_neg Bool.false_ne_true]
      exact hrest
    · rw [if_neg hfits]
      exact hrest

theorem ZeroBox.ws_eq_none (h : ZeroBox data) (hlen : len ≤ data.length) : matchUnknownWs data len = .ok none := by
  have hskip : skipLeadingSpace data len = .ok (data, len) := by
    obtain ⟨rest, rfl⟩ := h.size
    cases len with
    | zero => rfl
    | succ len => rfl
  unfold matchUnknownWs
  rw [hskip, ok_bind]
  dsimp only
  split
  · rfl
  · rw [h.firstMatch_eq_none hlen (by decide), ok_bind]
    exact h.inexact_eq_none hlen (by decide)

theorem ZeroBox.matchUnknown_eq (h : ZeroBox data) (hlen : len ≤ data.length) :
    matchUnknown fuel data len true = matchMp4 fuel data len := by
  unfold matchUnknown
  rw [h.exact_eq_none hlen, h.riff_eq_none, h.bom_eq_none hlen, h.ws_eq_none hlen]
  rfl

theorem matchUnknown_cases (allowUnsafe : Bool) (hlen : len ≤ data.length) :
    (∀ fuel, Returns (matchUnknown fuel data len allowUnsafe)) ∨
      allowUnsafe = true ∧ ∀ fuel, matchUnknown fuel data len allowUnsafe = matchMp4 fuel data len := by
  obtain ⟨exact, hexact⟩ : Returns (matchUnknownExact data len allowUnsafe) := ⟨_, firstMatch_eq _ _ hlen⟩
  obtain ⟨riff, hriff⟩ : Returns (matchUnknownRiff data len) := returns_firstRiffMatch _ hlen
  obtain ⟨bom, hbom⟩ : Returns (matchUnknownBom data len) := ⟨_, firstMatch_eq _ _ hlen⟩
  obtain ⟨ws, hws⟩ := returns_matchUnknownWs hlen
  unfold matchUnknown
  rw [hexact, hriff, hbom, hws]
  cases exact with
  | some type => exact .inl fun _ => returns_ok _
  | none =>
    cases riff with
    | some type => exact .inl fun _ => returns_ok _
    | none =>
      cases allowUnsafe with
      | false => exact .inl fun _ => returns_ok _
      | true =>
        cases bom with
        | some type => exact .inl fun _ => returns_ok _
        | none =>
          cases ws with
          | some type => exact .inl fun _ => returns_ok _
          | none => exact .inr ⟨rfl, fun _ => rfl⟩

theorem matchUnknown_returns_iff :
    (∃ fuel, Returns (matchUnknown fuel data (min data.length 512) true)) ↔ ¬ OpenBox data := by
  have hlen : min data.length 512 ≤ data.length := Nat.min_le_left ..
  constructor
  · rintro ⟨fuel, hreturns⟩ hopen
    rw [hopen.toZeroBox.matchUnknown_eq hlen] at hreturns
    exact (matchMp4_returns_iff rfl).1 ⟨fuel, hreturns⟩ hopen
  · intro hopen
    rcases matchUnknown_cases true hlen with hreturns | ⟨-, heq⟩
    · exact ⟨0, hreturns 0⟩
    · obtain ⟨fuel, hreturns⟩ := (matchMp4_returns_iff rfl).2 hopen
      exact ⟨fuel, (heq fuel).symm ▸ hreturns⟩

theorem computeUnknown_returns_iff {data : Option Bytes} :
    (∃ fuel, Returns (computeUnknown fuel data)) ↔ ∀ bytes ∈ data, ¬ OpenBox bytes := by
  cases data with
  | none => exact iff_of_true ⟨0, returns_ok _⟩ fun _ h => nomatch h
  | some data =>
    have hlen : min data.length 512 ≤ data.length := Nat.min_le_left ..
    have hall : (∀ bytes ∈ some data, ¬ OpenBox bytes) ↔ ¬ OpenBox data :=
      ⟨fun h => h data rfl, fun h _ hmem => Option.some.inj hmem ▸ h⟩
    rw [hall, ← matchUnknown_returns_iff]
    refine exists_congr fun fuel => ?_
    unfold computeUnknown
    constructor
    · rintro ⟨r, hr⟩
      cases hmatch : matchUnknown fuel data (min data.length 512) true with
      | ok type => exact returns_ok _
      | error e =>
        dsimp only at hr
        rw [hmatch, error_bind] at hr
        cases hr
    · rintro ⟨type, hmatch⟩
      dsimp only
      rw [hmatch, ok_bind]
      cases type with
      | some type => exact returns_ok _
      | none =>
        exact (returns_hasBinaryOctets hlen).bind fun b => .ite (fun _ => returns_ok _) fun _ => returns_ok _

theorem returns_startsWithBom (h : len ≤ data.length) : Returns (startsWithBom data len) := by
  unfold startsWithBom
  refine .ite (fun _ => returns_ok _) fun hlen => ?_
  refine (returns_read (by omega)).bind fun a => (returns_read (by omega)).bind fun b => ?_
  refine .ite (fun _ => returns_ok _) fun _ => .ite (fun _ => ?_) fun _ => returns_ok _
  exact (returns_read (by omega)).bind fun c => returns_ok _

theorem returns_computeTextOrBinary (data : Option Bytes) : Returns (computeTextOrBinary fuel data) := by
  cases data with
  | none => exact returns_ok _
  | some data =>
    have hlen : min data.length 512 ≤ data.length := Nat.min_le_left ..
    have hmatch : Returns (matchUnknown fuel data (min data.length 512) false) :=
      (matchUnknown_cases false hlen).elim (fun h => h fuel) fun h => Bool.noConfusion h.1
    unfold computeTextOrBinary
    refine (returns_startsWithBom hlen).bind fun bom => .ite (fun _ => returns_ok _) fun _ => ?_
    refine (returns_hasBinaryOctets hlen).bind fun binary => .ite (fun _ => returns_ok _) fun _ => ?_
    refine hmatch.bind fun type => ?_
    cases type <;> exact returns_ok _

theorem returns_computeImage (officialType : Bytes) (data : Option Bytes) :
    Returns (computeImage officialType data) := by
  cases data with
  | none => exact returns_ok _
  | some data =>
    unfold computeImage
    dsimp only
    rw [firstMatch_eq _ _ (Nat.le_refl _), ok_bind]
    split
    · exact returns_ok _
    · exact (returns_matchesRiff (Nat.le_refl _)).bind fun b => .ite (fun _ => returns_ok _) fun _ => returns_ok _

/-! ## Feeds -/

/-- How many rounds follow in a state without a byte being consumed. -/
def FeedState.rank : FeedState → Nat
  | .beforeBom | .markupStart | .commentOrDoctype => 1
  | _ => 0

/-- A round stays within the data, and it returns or the rest is shorter or of a lower rank. -/
def Descends (state : FeedState) (len : Nat) (m : Except Trap Round) : Prop :=
  (∃ type, m = .ok (.done type)) ∨
    ∃ state' n, m = .ok (.next state' n) ∧ 2 * (len - n) + state'.rank < 2 * len + state.rank

theorem Descends.ite {state : FeedState} {p : Prop} [Decidable p] {m m' : Except Trap Round}
    (h : Descends state len m) (h' : Descends state len m') : Descends state len (if p then m else m') := by
  split
  · exact h
  · exact h'

theorem descends_done {state : FeedState} (type : Bytes) : Descends state len (.ok (.done type)) := .inl ⟨type, rfl⟩

theorem descends_next {state state' : FeedState} {n : Nat}
    (h : 2 * (len - n) + state'.rank < 2 * len + state.rank) : Descends state len (.ok (.next state' n)) :=
  .inr ⟨state', n, rfl, h⟩

theorem feedRound_descends (state : FeedState) (hpos : 0 < len) (h : len ≤ data.length) :
    Descends state len (feedRound state data len) := by
  obtain ⟨c, hc⟩ := returns_read (show 0 < data.length by omega)
  have hstep : ∀ {state state' : FeedState} {n : Nat}, 0 < n → state'.rank ≤ 1 →
      Descends state len (.ok (.next state' n)) := by
    intro state state' n hn hrank
    exact descends_next (by omega)
  have hstay : ∀ {state state' : FeedState}, state.rank = 1 → state'.rank = 0 →
      Descends state len (.ok (.next state' 0)) := by
    intro state state' hrank hrank'
    exact descends_next (by omega)
  unfold feedRound
  rw [hc, ok_bind]
  cases state with
  | beforeBom =>
    dsimp only
    rw [startsWith_eq h, ok_bind]
    exact .ite (hstep (by decide) (by decide)) (hstay rfl rfl)
  | beforeMarkup =>
    refine .ite (hstep (by decide) (by decide)) (.ite (hstep hpos (by decide)) (hstep (by decide) (by decide)))
  | markupStart =>
    refine .ite (hstep (by decide) (by decide)) (.ite (hstep (by decide) (by decide)) (hstay rfl rfl))
  | commentOrDoctype =>
    dsimp only
    rw [startsWith_eq h, ok_bind]
    exact .ite (hstep (by decide) (by decide)) (hstay rfl rfl)
  | inComment =>
    dsimp only
    rw [startsWith_eq h, ok_bind]
    exact .ite (hstep (by decide) (by decide)) (hstep (by decide) (by decide))
  | inDoctype => exact .ite (hstep (by decide) (by decide)) (hstep (by decide) (by decide))
  | inPi =>
    dsimp only
    rw [startsWith_eq h, ok_bind]
    exact .ite (hstep (by decide) (by decide)) (hstep (by decide) (by decide))
  | inTag =>
    dsimp only
    rw [startsWith_eq h, ok_bind, startsWith_eq h, ok_bind, startsWith_eq h, ok_bind]
    refine .ite (descends_done _) (.ite (descends_done _) (.ite (hstep (by decide) ?_) (hstep hpos (by decide))))
    exact Nat.zero_le 1
  | inRdf rdf rss =>
    have hflags : ∀ rdf' rss' n, 0 < n → Descends (.inRdf rdf rss) len
        (if (rdf' && rss') = true then .ok (.done (str "application/rss+xml")) else .ok (.next (.inRdf rdf' rss') n)) :=
      fun rdf' rss' n hn => .ite (descends_done _) (hstep hn (Nat.zero_le 1))
    dsimp only
    rw [startsWith_eq h, ok_bind, startsWith_eq h]
    split
    · exact hflags _ _ _ (show 0 < RSS_NS.length by decide)
    · rw [ok_bind]
      split
      · exact hflags _ _ _ (show 0 < RDF_NS.length by decide)
      · exact hflags _ _ _ Nat.one_pos

theorem feedLoop_returns : ∀ {fuel : Nat} {state : FeedState} {data : Bytes} {len : Nat},
    len ≤ data.length → 2 * len + state.rank < fuel → Returns (feedLoop fuel state data len)
  | 0, _, _, _, _, hfuel => absurd hfuel (Nat.not_lt_zero _)
  | fuel + 1, state, data, len, h, hfuel => by
    unfold feedLoop
    refine .ite (fun _ => returns_ok _) fun hne => ?_
    rcases feedRound_descends state (Nat.pos_of_ne_zero hne) h with ⟨type, hround⟩ | ⟨state', n, hround, hlt⟩
    · rw [hround, ok_bind]
      exact returns_ok _
    · rw [hround, ok_bind]
      exact feedLoop_returns (length_drop_ge n h) (by omega)

theorem computeFeedOrHtml_returns (data : Option Bytes) : ∃ fuel, Returns (computeFeedOrHtml fuel data) := by
  cases data with
  | none => exact ⟨0, returns_ok _⟩
  | some data =>
    have hlen : min data.length 512 ≤ data.length := Nat.min_le_left ..
    have hloop := @feedLoop_returns _ .beforeBom _ _ hlen (Nat.lt_succ_self _)
    exact ⟨_, hloop.bind fun type => returns_ok _⟩

/-! ## The effective type -/

/-- The type is computed without a read behind the data, and all loops end. -/
def InBounds (handlers : Handlers) (contentTypeHeader data : Option Bytes) (sniffAllowed imageOnly : Bool) : Prop :=
  ∃ fuel, Returns (computeEffectiveType fuel handlers contentTypeHeader data sniffAllowed imageOnly)

/-- There is no official type: no header, no media type in it, or one that stands for an unknown type. -/
def isUnknown (contentTypeHeader : Option Bytes) (imageOnly : Bool) : Bool :=
  match contentTypeHeader with
  | none => true
  | some header =>
    match Http.parseContentType header with
    | none => true
    | some ct => !imageOnly && !textTypes.contains header && isUnknownType ct.mediaType

/-- The type is computed within the data but where an unknown type is sniffed and the data is an open box. -/
theorem inBounds_iff {handlers : Handlers} {contentTypeHeader data : Option Bytes} {sniffAllowed imageOnly : Bool} :
    InBounds handlers contentTypeHeader data sniffAllowed imageOnly ↔
      ¬ (sniffAllowed = true ∧ isUnknown contentTypeHeader imageOnly = true ∧ ∃ bytes ∈ data, OpenBox bytes) := by
  have hunknown : (∃ fuel, Returns (computeUnknown fuel data)) ↔ ¬ ∃ bytes ∈ data, OpenBox bytes := by
    rw [computeUnknown_returns_iff]
    push Not
    rfl
  have hnot : sniffAllowed = false → ∀ p, ¬ (sniffAllowed = true ∧ p) := by
    rintro rfl p ⟨h, -⟩
    cases h
  unfold InBounds computeEffectiveType
  cases contentTypeHeader with
  | none =>
    cases sniffAllowed with
    | false => exact iff_of_true ⟨0, returns_ok _⟩ (hnot rfl _)
    | true => simpa [isUnknown] using hunknown
  | some header =>
    unfold isUnknown
    dsimp only
    cases Http.parseContentType header with
    | none =>
      cases sniffAllowed with
      | false => exact iff_of_true ⟨0, returns_ok _⟩ (hnot rfl _)
      | true => simpa using hunknown
    | some ct =>
      cases sniffAllowed with
      | false => exact iff_of_true ⟨0, returns_ok _⟩ (hnot rfl _)
      | true =>
        have htrue : ¬ (true = false) := Bool.noConfusion
        simp only [if_neg htrue]
        cases imageOnly with
        | true =>
          refine iff_of_true ⟨0, ?_⟩ (by simp)
          rw [if_pos rfl]
          exact .ite (fun _ => returns_ok _) fun _ => returns_computeImage _ _
        | false =>
          simp only [if_neg Bool.false_ne_true, Bool.not_false, Bool.true_and, Bool.and_eq_true,
            Bool.not_eq_true', contains_eq_mem, decide_eq_false_iff_not]
          by_cases htext : header ∈ textTypes
          · simp only [if_pos htext]
            exact iff_of_true ⟨0, returns_computeTextOrBinary _⟩ fun h => h.2.1.1 htext
          · simp only [if_neg htext]
            cases hunknownType : isUnknownType ct.mediaType with
            | true => simpa [htext] using hunknown
            | false =>
              simp only [if_neg Bool.false_ne_true]
              refine iff_of_true ?_ fun h => Bool.false_ne_true h.2.1.2
              obtain ⟨fuel, hfeed⟩ := computeFeedOrHtml_returns data
              refine ⟨fuel, .ite (fun _ => returns_ok _) fun _ => .ite (fun _ => returns_computeImage _ _) fun _ => ?_⟩
              exact .ite (fun _ => hfeed) fun _ => returns_ok _

/-- Twelve bytes of a box whose size is 0. -/
def endlessBox : Bytes := [0, 0, 0, 0] ++ str "ftypisom"

/-- The search for `mp4` goes past the end of twelve bytes. -/
theorem not_inBounds : ¬ InBounds [] none (some endlessBox) true false := by
  rintro ⟨fuel, hreturns⟩
  have hopen : OpenBox endlessBox := {
    length := by decide
    size := by decide
    type := by decide
    major := by unfold Brand; decide
    brands := by
      intro i hi _ _ hb
      have hlen := hb.length
      have htwelve : endlessBox.length = 12 := by decide
      omega
    minor := by
      rintro ⟨hb, -⟩
      have hlen := hb.length
      have htwelve : endlessBox.length = 12 := by decide
      omega }
  have hsniff : Returns (computeUnknown fuel (some endlessBox)) := by simpa [computeEffectiveType] using hreturns
  exact computeUnknown_returns_iff.1 ⟨fuel, hsniff⟩ endlessBox rfl hopen

end Nami.Mimesniff
