import Nami.Lib.Segments
import Nami.Nsurl.Section

/-!
# The labels of a host

What `idna_encode` makes of a host that consists of letters, digits, hyphens and dots. The loop ends at the first label
that is empty, and a label with a hyphen at one of its ends goes through the conversion for names in other alphabets.
-/

namespace Nami.Platform

/-- `idna__ucs4_to_ace` puts the ACE prefix in front of what it encodes. -/
def PrefixesAce (P : Platform) : Prop := ∀ label ace, P.labelToAce label = some ace → str "xn--" <+: ace

theorem plain_prefixesAce : plain.PrefixesAce := by
  intro label ace h
  cases h

end Nami.Platform

namespace Nami.Idna

open Ascii

variable {P : Platform} {host out rest s : Bytes} {segs : List Bytes}

/-- What separates labels. -/
abbrev dot : UInt8 := '.'

/-- Letters, digits and hyphens. -/
def isLabelByte (c : UInt8) : Bool := isAlphanumerical c || c == '-'

/-- No hyphen at the ends. -/
def PlainEnds (label : Bytes) : Prop := label.head? ≠ some ('-' : UInt8) ∧ label.getLast? ≠ some ('-' : UInt8)

/-- Labels that are kept: only the last one may be empty, and none has a hyphen at its ends. -/
def KeptLabels (labels : List Bytes) : Prop := (∀ l ∈ labels.dropLast, l ≠ []) ∧ ∀ l ∈ labels, PlainEnds l

theorem plainEnds_nil : PlainEnds [] := by
  constructor <;> intro h <;> cases h

theorem isLdh_iff (hs : ∀ c ∈ s, isLabelByte c = true) : isLdh s = true ↔ PlainEnds s := by
  have hall : (s.all fun c => c == '-' || isAlphanumerical c) = true := by
    rw [List.all_eq_true]
    intro c hc
    rw [Bool.or_comm]
    exact hs c hc
  unfold isLdh PlainEnds
  rw [hall, Bool.and_true, Bool.and_eq_true, bne_iff_ne, bne_iff_ne]

theorem keptLabels_singleton : KeptLabels [s] ↔ PlainEnds s := by
  unfold KeptLabels
  rw [List.forall_mem_singleton]
  exact and_iff_right fun l hl => absurd hl List.not_mem_nil

theorem keptLabels_cons (h : segs ≠ []) : KeptLabels (s :: segs) ↔ s ≠ [] ∧ PlainEnds s ∧ KeptLabels segs := by
  unfold KeptLabels
  rw [List.dropLast_cons_of_ne_nil h, List.forall_mem_cons, List.forall_mem_cons]
  exact ⟨fun ⟨⟨h₁, h₂⟩, h₃, h₄⟩ => ⟨h₁, h₃, h₂, h₄⟩, fun ⟨h₁, h₃, h₂, h₄⟩ => ⟨⟨h₁, h₂⟩, h₃, h₄⟩⟩

theorem hostLabel_append (hs : ∀ c ∈ s, isLabelByte c = true) {n : Nat}
    (hn : n = (s ++ Segments.join dot segs).length) :
    hostLabel (s ++ Segments.join dot segs ++ rest) n = s := by
  have hbyte (c : UInt8) (hc : isLabelByte c = true) : (decide (c ≠ '.') && decide (c ≠ ':')) = true := by
    have hdot : c ≠ '.' := by
      rintro rfl
      exact absurd hc (by decide)
    have hcolon : c ≠ ':' := by
      rintro rfl
      exact absurd hc (by decide)
    rw [decide_eq_true hdot, decide_eq_true hcolon]
    rfl
  rw [hostLabel, if_neg (by omega), hn, Int.toNat_natCast, List.take_left]
  refine takeWhile_append_stop (fun c hc => hbyte c (hs c hc)) fun c hc => ?_
  cases segs with
  | nil => cases hc
  | cons s' segs =>
    cases hc
    rfl

theorem fqdnAppend_eq_some {fqdn fqdn' t : Bytes} (h : fqdnAppend fqdn t = some fqdn') : fqdn' = fqdn ++ t := by
  unfold fqdnAppend at h
  split at h
  · cases h
  · exact (Option.some.inj h).symm

theorem encodeLabel_cases (hP : P.PrefixesAce) (hs : ∀ c ∈ s, isLabelByte c = true) (hace : ¬ str "xn--" <+: s)
    (h : encodeLabel P s = some out) : PlainEnds s ∧ out = s ∨ ¬ PlainEnds s ∧ str "xn--" <+: out := by
  unfold encodeLabel at h
  by_cases hldh : isLdh s = true
  · left
    refine ⟨(isLdh_iff hs).mp hldh, ?_⟩
    have hnot : isAce s = false := by
      unfold isAce
      rw [hldh, Bool.true_and, beq_eq_false_iff_ne]
      intro htake
      exact hace (htake ▸ List.take_prefix 4 s)
    rw [if_neg (by simp [hldh]), hnot] at h
    exact (Option.some.inj h).symm
  · right
    refine ⟨fun hends => hldh ((isLdh_iff hs).mpr hends), ?_⟩
    rw [if_pos (by simpa using hldh)] at h
    exact hP s out h

theorem not_prefix_append_join (hs : dot ∉ s) (hace : ¬ str "xn--" <+: s) :
    ¬ str "xn--" <+: s ++ Segments.join dot segs := by
  rintro ⟨t, ht⟩
  have hprefix : ∀ c ∈ str "xn--", decide (c ≠ dot) = true := List.all_eq_true.mp rfl
  have hwhile := congrArg (List.takeWhile (· ≠ dot)) ht
  rw [Segments.takeWhile_append_join hs, List.takeWhile_append_of_pos hprefix] at hwhile
  exact hace ⟨_, hwhile⟩

theorem dot_notMem (hs : ∀ c ∈ s, isLabelByte c = true) : dot ∉ s :=
  fun hmem => absurd (hs dot hmem) (by decide)

theorem encodeLoop_succ {fuel : Nat} {fqdn : Bytes} (hs : ∀ c ∈ s, isLabelByte c = true) (hne : s ≠ [])
    (hrest : rest = [] ∨ rest.head? = some (':' : UInt8))
    (h : encodeLoop P (fuel + 1) (s ++ Segments.join dot segs ++ rest) (s ++ Segments.join dot segs).length fqdn =
      some out) :
    ∃ label, encodeLabel P s = some label ∧ (segs = [] ∧ out = fqdn ++ label ++ str "." ∨
      ∃ s' segs', segs = s' :: segs' ∧
        encodeLoop P fuel (s' ++ Segments.join dot segs' ++ rest) (s' ++ Segments.join dot segs').length
          (fqdn ++ label ++ str ".") = some out) := by
  rw [encodeLoop, hostLabel_append hs rfl] at h
  rw [if_neg hne] at h
  simp only [Option.bind_eq_bind, Option.bind_eq_some_iff] at h
  obtain ⟨label, hlabel, fqdn₁, h₁, fqdn₂, h₂, h⟩ := h
  rw [fqdnAppend_eq_some h₂, fqdnAppend_eq_some h₁, List.append_assoc s, List.drop_left] at h
  refine ⟨label, hlabel, ?_⟩
  cases segs with
  | nil =>
    left
    refine ⟨rfl, ?_⟩
    rcases hrest with rfl | hrest
    · exact (Option.some.inj h).symm
    · obtain ⟨tail, rfl⟩ := List.head?_eq_some_iff.mp hrest
      rw [Segments.join_nil, List.nil_append] at h
      exact (Option.some.inj h).symm
  | cons s' segs =>
    right
    refine ⟨s', segs, rfl, ?_⟩
    rw [Segments.join_cons, List.cons_append] at h
    simp only at h
    rw [if_neg (by decide)] at h
    have hlen : ((s ++ dot :: (s' ++ Segments.join dot segs)).length : Int) - s.length - 1 =
        (s' ++ Segments.join dot segs).length := by
      rw [List.length_append, List.length_cons]
      omega
    rwa [hlen] at h

theorem ne_of_starts_ace {r : Bytes} (hs : dot ∉ s) (hace : ¬ str "xn--" <+: s) (hr : str "xn--" <+: r) :
    ¬ (r = s ++ Segments.join dot segs ++ str "." ∨ r = s ++ Segments.join dot segs) := by
  rintro (rfl | rfl)
  · rw [List.append_assoc] at hr
    have hconcat : Segments.join dot segs ++ str "." = Segments.join dot (segs ++ [[]]) := Segments.join_concat.symm
    rw [hconcat] at hr
    exact not_prefix_append_join hs hace hr
  · exact not_prefix_append_join hs hace hr

theorem encodeLoop_iff (hP : P.PrefixesAce) {fuel : Nat} {fqdn : Bytes}
    (hchars : ∀ l ∈ s :: segs, ∀ c ∈ l, isLabelByte c = true) (hace : ∀ l ∈ s :: segs, ¬ str "xn--" <+: l)
    (hrest : rest = [] ∨ rest.head? = some (':' : UInt8))
    (h : encodeLoop P fuel (s ++ Segments.join dot segs ++ rest) (s ++ Segments.join dot segs).length fqdn =
      some out) :
    ∃ r, out = fqdn ++ r ∧ (s = [] ∧ r = [] ∨ ∃ t, r = t ++ str ".") ∧
      (r = s ++ Segments.join dot segs ++ str "." ∨ r = s ++ Segments.join dot segs ↔ KeptLabels (s :: segs)) := by
  induction segs generalizing s fuel fqdn with
  | nil =>
    obtain ⟨hs, -⟩ := List.forall_mem_cons.mp hchars
    obtain ⟨hs', -⟩ := List.forall_mem_cons.mp hace
    cases fuel with
    | zero => cases h
    | succ fuel =>
      by_cases hne : s = []
      · subst hne
        rw [encodeLoop, hostLabel_append hs rfl, if_pos rfl] at h
        refine ⟨[], by rw [List.append_nil, Option.some.inj h], .inl ⟨rfl, rfl⟩, ?_⟩
        exact iff_of_true (.inr rfl) (keptLabels_singleton.mpr plainEnds_nil)
      · obtain ⟨label, hlabel, ⟨-, rfl⟩ | ⟨_, _, hcons, -⟩⟩ := encodeLoop_succ hs hne hrest h
        · refine ⟨label ++ str ".", List.append_assoc .., .inr ⟨label, rfl⟩, ?_⟩
          rw [keptLabels_singleton]
          rcases encodeLabel_cases hP hs hs' hlabel with ⟨hends, rfl⟩ | ⟨hends, hace⟩
          · exact iff_of_true (.inl (by rw [Segments.join_nil, List.append_nil])) hends
          · exact iff_of_false (ne_of_starts_ace (dot_notMem hs) hs' (hace.trans (List.prefix_append _ _))) hends
        · cases hcons
  | cons s' segs ih =>
    obtain ⟨hs, hsegs⟩ := List.forall_mem_cons.mp hchars
    obtain ⟨hs', hsegs'⟩ := List.forall_mem_cons.mp hace
    rw [keptLabels_cons (List.cons_ne_nil _ _)]
    cases fuel with
    | zero => cases h
    | succ fuel =>
      by_cases hne : s = []
      · subst hne
        rw [encodeLoop, hostLabel_append hs rfl, if_pos rfl] at h
        refine ⟨[], by rw [List.append_nil, Option.some.inj h], .inl ⟨rfl, rfl⟩, ?_⟩
        refine iff_of_false ?_ fun hkept => hkept.1 rfl
        rintro (h | h) <;> cases h
      · obtain ⟨label, hlabel, ⟨hnil, -⟩ | ⟨_, _, hcons, hloop⟩⟩ := encodeLoop_succ hs hne hrest h
        · cases hnil
        · cases hcons
          obtain ⟨r, rfl, hend, hiff⟩ := ih hsegs hsegs' hloop
          refine ⟨label ++ str "." ++ r, by simp only [List.append_assoc], .inr ?_, ?_⟩
          · rcases hend with ⟨-, rfl⟩ | ⟨t, rfl⟩
            · exact ⟨label, List.append_nil _⟩
            · exact ⟨label ++ str "." ++ t, (List.append_assoc ..).symm⟩
          · rcases encodeLabel_cases hP hs hs' hlabel with ⟨hends, rfl⟩ | ⟨hends, hace⟩
            · rw [and_iff_right hne, and_iff_right hends, ← hiff]
              have hdot : str "." = [dot] := rfl
              simp only [hdot, Segments.join_cons, List.append_assoc, List.append_right_inj, List.cons_append,
                List.nil_append, List.cons.injEq, true_and]
            · refine iff_of_false (ne_of_starts_ace (dot_notMem hs) hs' ?_) fun hkept => hends hkept.2.1
              rw [List.append_assoc]
              exact hace.trans (List.prefix_append _ _)

/-- `idna_encode` keeps a host of letters, digits, hyphens and dots, but for a dot at its end, if no label but the last
is empty and no label has a hyphen at its ends. A port may follow the host. -/
theorem encode_keeps_iff (hP : P.PrefixesAce) (hhost : ∀ c ∈ host, isAlphanumerical c = true ∨ c = '-' ∨ c = '.')
    (hace : ∀ l ∈ host.splitOn ('.' : UInt8), ¬ str "xn--" <+: l) (hrest : rest = [] ∨ rest.head? = some (':' : UInt8))
    (h : encode P (host ++ rest) host.length = some out) :
    host = out ∨ host = out ++ str "." ↔ KeptLabels (host.splitOn ('.' : UInt8)) := by
  obtain ⟨s, segs, rfl, hs, hsegs⟩ := Segments.exists_segments dot host
  rw [Segments.splitOn_append_join hs hsegs] at hace ⊢
  have hchars : ∀ l ∈ s :: segs, ∀ c ∈ l, isLabelByte c = true := by
    intro l hl c hc
    have hne : c ≠ dot := by
      rintro rfl
      exact (List.forall_mem_cons.mpr ⟨hs, hsegs⟩ : ∀ l ∈ s :: segs, dot ∉ l) l hl hc
    unfold isLabelByte
    rcases hhost c (Segments.mem_append_join hl hc) with h | rfl | rfl
    · rw [h, Bool.true_or]
    · rfl
    · exact absurd rfl hne
  unfold encode at h
  rw [hostLabel_append (hchars s List.mem_cons_self) rfl] at h
  split at h
  · cases h
  next hne =>
  obtain ⟨out', hloop, rfl⟩ := Option.map_eq_some_iff.mp h
  obtain ⟨r, rfl, hend, hiff⟩ := encodeLoop_iff hP hchars hace hrest hloop
  obtain ⟨t, rfl⟩ := hend.resolve_left fun hnil => hne hnil.1
  have hdrop : (t ++ str ".").dropLast = t := List.dropLast_concat
  rw [hdrop, ← hiff, List.append_left_inj, eq_comm, @eq_comm _ _ (t ++ str ".")]

theorem hostBytes_of_all {host : Bytes} (h : host.all (fun c => isAlphanumerical c || c == '-' || c == '.') = true) :
    ∀ c ∈ host, isAlphanumerical c = true ∨ c = '-' ∨ c = '.' := by
  intro c hc
  simpa [or_assoc] using List.all_eq_true.mp h c hc

theorem not_ace_of_all {labels : List Bytes} (h : labels.all (fun l => !(str "xn--").isPrefixOf l) = true) :
    ∀ l ∈ labels, ¬ str "xn--" <+: l := by
  intro l hl hace
  have hnot := List.all_eq_true.mp h l hl
  rw [ List.isPrefixOf_iff_prefix.mpr hace] at hnot
  cases hnot

theorem encode_keeps_port : encode .plain (str "www.a-b.org.:80") 12 = some (str "www.a-b.org") ∧
    KeptLabels ((str "www.a-b.org.").splitOn ('.' : UInt8)) := by
  have hencode : encode .plain (str "www.a-b.org." ++ str ":80") 12 = some (str "www.a-b.org") := rfl
  refine ⟨hencode, (encode_keeps_iff Platform.plain_prefixesAce ?_ ?_ (.inr rfl) hencode).mp (.inr rfl)⟩
  · exact hostBytes_of_all rfl
  · exact not_ace_of_all rfl

/-- The rest of the host behind an empty label is lost. -/
theorem not_encode_keeps : ¬ ∀ (P : Platform) (host out : Bytes), P.PrefixesAce →
    (∀ c ∈ host, isAlphanumerical c = true ∨ c = '-' ∨ c = '.') →
    (∀ l ∈ host.splitOn ('.' : UInt8), ¬ str "xn--" <+: l) → encode P host host.length = some out →
    host = out ∨ host = out ++ str "." := by
  intro h
  have hkept := h .plain (str "bank.com..evil.org") (str "bank.com") Platform.plain_prefixesAce
    (hostBytes_of_all rfl) (not_ace_of_all rfl) rfl
  exact absurd hkept (by decide)

end Nami.Idna
