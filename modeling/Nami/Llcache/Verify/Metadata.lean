import Nami.Llcache.Metadata
import Nami.Nsurl.Verify.Consistency

/-!
# The metadata of an object is read back

What `llcache_serialise_metadata` writes, and what `llcache_process_metadata` makes of it. The headers
come back through the parser for headers from the network.
-/

namespace Nami.Llcache

open List
open Ascii
open Terminated (text)

/-! ## Numbers -/

theorem not_isSign_of_isDigit {c : UInt8} (h : isDigit c = true) : isSign c = false := by
  revert c
  decide +kernel

theorem notMem_formatNat (n : Nat) : 0 ∉ formatNat n := by
  intro h
  exact absurd (isDigit_of_mem_formatNat h) (by decide)

theorem scanSize_formatNat {n : Nat} (h : n < 2 ^ 64) : scanSize (formatNat n) = some n := by
  obtain ⟨c, t, heq⟩ := exists_cons_of_ne_nil (formatNat_ne_nil n)
  have hc : isDigit c = true := isDigit_of_mem_formatNat (heq ▸ mem_cons_self)
  have hspace : (formatNat n).dropWhile isSpace = formatNat n := by
    rw [heq, dropWhile_cons_of_neg (by rw [not_isSpace_of_isDigit hc]; exact Bool.false_ne_true)]
  have hdigits : (formatNat n).takeWhile isDigit = formatNat n :=
    takeWhile_eq_self_iff.2 fun c hc => isDigit_of_mem_formatNat hc
  have hsign : (formatNat n).head?.any isSign = false := by
    rw [heq]
    exact not_isSign_of_isDigit hc
  have hminus : (formatNat n).head? ≠ some ('-' : UInt8) := by
    rw [heq]
    rintro h
    cases h
    exact absurd hc (by decide)
  unfold scanSize
  simp only [hspace, hsign, Bool.false_eq_true, if_false, hdigits, formatNat_ne_nil, decimal_formatNat,
    if_neg (Nat.not_le_of_lt h), hminus]

theorem strtoll_formatNat {n : Nat} (h : n ≤ 9223372036854775807) :
    strtoll false (formatNat n) = { count := (formatNat n).length, value := n, erange := false } := by
  have hscan := @strtoll_decimal _ [] (formatNat_ne_nil n)
    (fun c hc => isDigit_of_mem_formatNat hc) (by simp) (by rw [decimal_formatNat]; exact h) false
  rwa [append_nil, decimal_formatNat] at hscan

theorem formatInt_ofNat (n : Nat) : formatInt n = formatNat n := rfl

theorem snptimet_formatInt {n : Nat} (h : n ≤ 9223372036854775807) : snptimet (formatInt n) = some (n : Int) := by
  have hne := formatNat_ne_nil n
  unfold snptimet
  rw [formatInt_ofNat, strtoll_formatNat h]
  simp [hne]

theorem scanInt_formatNat {n : Nat} (h : n < 2 ^ 31) : scanInt (formatNat n) = some (n : Int) := by
  have hne := formatNat_ne_nil n
  unfold scanInt
  rw [strtoll_formatNat (by omega)]
  have hmod : (n : Int).bmod 4294967296 = n := by
    rw [Int.bmod_def]
    omega
  simp [hne, hmod]

/-! ## Headers -/

/-- A header is as `llcache_fetch_split_header` leaves it. White space behind the value is possible. -/
structure WellSplit (header : Header) : Prop where
  ne_nil : header.1 ≠ []
  colon : (':' : UInt8) ∉ header.1
  name_head : header.1.dropWhile isBlank = header.1
  name_last : header.1.rdropWhile isBlank = header.1
  value_head : header.2.dropWhile isBlank = header.2
  name_nul : 0 ∉ header.1
  value_nul : 0 ∉ header.2

theorem dropWhile_of_prefix {p : UInt8 → Bool} {a b : Bytes} (h : a <+: b) (hb : b.dropWhile p = b) :
    a.dropWhile p = a := by
  cases a with
  | nil => rfl
  | cons c a =>
    obtain ⟨t, rfl⟩ := h
    cases hc : p c with
    | false => rw [dropWhile_cons_of_neg (by simp [hc])]
    | true =>
      have hlen := congrArg List.length hb
      rw [cons_append, dropWhile_cons_of_pos hc, length_cons] at hlen
      have := (dropWhile_suffix p (l := a ++ t)).length_le
      omega

theorem splitHeader_wellSplit {data : Bytes} (hz : 0 ∉ data) (hne : (splitHeader data).1 ≠ []) :
    WellSplit (splitHeader data) := by
  have hsuffix : data.dropWhile isBlank <:+ data := dropWhile_suffix _
  have hstripped : (data.dropWhile isBlank).dropWhile isBlank = data.dropWhile isBlank := dropWhile_idempotent ..
  have hnul : ∀ s : Bytes, s ⊆ data.dropWhile isBlank → 0 ∉ s := fun s hs hmem =>
    hz (hsuffix.subset (hs hmem))
  unfold splitHeader at hne ⊢
  dsimp only at hne ⊢
  by_cases hcolon : (':' : UInt8) ∈ data.dropWhile isBlank
  · rw [if_pos hcolon] at hne ⊢
    have htake : (data.dropWhile isBlank).takeWhile (· != (':' : UInt8)) <+: data.dropWhile isBlank :=
      takeWhile_prefix _
    have hname := (List.rdropWhile_prefix isBlank ((data.dropWhile isBlank).takeWhile (· != (':' : UInt8)))).trans htake
    have hvalue : (((data.dropWhile isBlank).dropWhile (· != (':' : UInt8))).drop 1).dropWhile isBlank
        <:+ data.dropWhile isBlank :=
      (dropWhile_suffix _).trans ((drop_suffix _ _).trans (dropWhile_suffix _))
    refine ⟨hne, ?_, dropWhile_of_prefix hname hstripped, rdropWhile_idempotent .., ?_, hnul _ hname.subset, ?_⟩
    · intro hmem
      have := mem_takeWhile_imp ((List.rdropWhile_prefix ..).subset hmem)
      simp at this
    · dsimp only
      split
      · exact dropWhile_of_prefix (List.rdropWhile_prefix ..) (dropWhile_idempotent ..)
      · exact dropWhile_idempotent ..
    · dsimp only
      split
      · exact hnul _ fun c hc => hvalue.subset ((List.rdropWhile_prefix ..).subset hc)
      · exact hnul _ hvalue.subset
  · rw [if_neg hcolon] at hne ⊢
    have hname := rdropWhile_prefix isBlank (data.dropWhile isBlank)
    exact ⟨hne, fun hmem => hcolon (hname.subset hmem), dropWhile_of_prefix hname hstripped,
      rdropWhile_idempotent .., rfl, hnul _ hname.subset, not_mem_nil⟩

theorem splitHeader_headerLine {header : Header} (h : WellSplit header) :
    splitHeader (headerLine header) = (header.1, header.2.rdropWhile isBlank) := by
  obtain ⟨c, t, hname⟩ := exists_cons_of_ne_nil h.ne_nil
  have hcons : headerLine header = header.1 ++ (':' : UInt8) :: header.2 := by
    unfold headerLine
    rw [append_assoc]
    rfl
  have hstripped : (headerLine header).dropWhile isBlank = headerLine header := by
    have hc : isBlank c = false := by
      by_contra hc
      have hlen := congrArg List.length h.name_head
      rw [hname, dropWhile_cons_of_pos (by simpa using hc), length_cons] at hlen
      have := (dropWhile_suffix isBlank (l := t)).length_le
      omega
    rw [hcons, hname, cons_append, dropWhile_cons_of_neg (by simp [hc])]
  have hne : ∀ d ∈ header.1, (d != (':' : UInt8)) = true := by
    intro d hd
    rw [bne_iff_ne]
    rintro rfl
    exact h.colon hd
  have htake : (headerLine header).takeWhile (· != (':' : UInt8)) = header.1 := by
    rw [hcons, takeWhile_append_of_pos hne, takeWhile_cons_of_neg (by simp), append_nil]
  have hdrop : (headerLine header).dropWhile (· != (':' : UInt8)) = (':' : UInt8) :: header.2 := by
    rw [hcons, dropWhile_append_of_pos hne, dropWhile_cons_of_neg (by simp)]
  have hmem : (':' : UInt8) ∈ headerLine header := by simp [hcons]
  unfold splitHeader
  simp only [hstripped, hmem, if_true, htake, hdrop, h.name_last, drop_succ_cons, drop_zero, h.value_head]

theorem startsResponse_headerLine (header : Header) : startsResponse (headerLine header) = startsResponse header.1 := by
  have hcons : headerLine header = header.1 ++ (':' : UInt8) :: header.2 := by
    unfold headerLine
    rw [append_assoc]
    rfl
  unfold startsResponse
  rw [hcons, Bool.eq_iff_iff, isPrefixOf_iff_prefix, isPrefixOf_iff_prefix]
  constructor
  · intro hp
    rcases prefix_or_prefix_of_prefix hp (prefix_append header.1 _) with hle | hle
    · exact hle
    · -- a shorter name has the colon within the marker
      obtain ⟨u, hu⟩ := hle
      cases u with
      | nil => exact ⟨[], by rw [append_nil] at hu ⊢; exact hu.symm⟩
      | cons d u =>
        rw [← hu] at hp
        have hd := (prefix_append_right_inj header.1).1 hp
        rw [cons_prefix_cons] at hd
        have hmem : (':' : UInt8) ∈ str "HTTP/" := by
          rw [← hu, hd.1]
          simp
        exact absurd hmem (by decide)
  · exact fun hp => hp.trans (prefix_append ..)

theorem notMem_headerLine {header : Header} (h : WellSplit header) : 0 ∉ headerLine header := by
  unfold headerLine
  simp [h.name_nul, h.value_nul, str]

variable {P : Platform} {env : Env} {object : Object P}

theorem processHeader_headers (env : Env) (object : Object P) (data : Bytes) :
    ((object.processHeader env data).1.headers = object.headers ∨ (object.processHeader env data).1.headers = []) ∨
    (splitHeader data).1 ≠ [] ∧ (object.processHeader env data).1.headers =
        (if startsResponse data then [] else object.headers) ++ [splitHeader data] := by
  unfold Object.processHeader
  dsimp only
  split
  · split
    · exact .inl (.inr rfl)
    · exact .inl (.inl rfl)
  · split
    · split
      · exact .inl (.inr rfl)
      · exact .inl (.inl rfl)
    · next hne =>
      refine .inr ⟨hne, ?_⟩
      split <;> rfl

/-- The headers that `llcache_fetch_process_header` accumulates from some lines. -/
def Accumulated (P : Platform) (headers : List Header) : Prop :=
  ∃ (start : Object P) (lines : List (Env × Bytes)), start.headers = [] ∧ (∀ l ∈ lines, 0 ∉ l.2) ∧
    headers = (lines.foldl (fun object l => (object.processHeader l.1 l.2).1) start).headers

theorem Accumulated.wellSplit {headers : List Header} (h : Accumulated P headers) :
    ∀ header ∈ headers, WellSplit header := by
  obtain ⟨start, lines, hstart, hlines, rfl⟩ := h
  have hempty : ∀ header ∈ start.headers, WellSplit header := by
    rw [hstart]
    exact fun header hmem => absurd hmem not_mem_nil
  clear hstart
  induction lines generalizing start with
  | nil => exact hempty
  | cons l lines ih =>
    rw [foldl_cons]
    refine ih _ (fun l' hl' => hlines l' (mem_cons_of_mem l hl')) ?_
    obtain (hkeep | hnil) | ⟨hne, happend⟩ := processHeader_headers l.1 start l.2
    · rw [hkeep]
      exact hempty
    · rw [hnil]
      exact fun header hmem => absurd hmem not_mem_nil
    · rw [happend]
      intro header hmem
      rcases mem_append.1 hmem with hmem | hmem
      · split at hmem
        · cases hmem
        · exact hempty header hmem
      · obtain rfl := mem_singleton.1 hmem
        exact splitHeader_wellSplit (hlines l mem_cons_self) hne

theorem Accumulated.nil (start : Object P) (h : start.headers = []) : Accumulated P [] :=
  ⟨start, [], h, fun _ hl => absurd hl not_mem_nil, h.symm⟩

theorem Accumulated.append {headers : List Header} {data : Bytes} (h : Accumulated P headers)
    (hz : 0 ∉ data) (hne : (splitHeader data).1 ≠ []) (hstarts : startsResponse data = false) :
    Accumulated P (headers ++ [splitHeader data]) := by
  obtain ⟨start, lines, hstart, hlines, rfl⟩ := h
  refine ⟨start, lines ++ [(Env.calm, data)], hstart, ?_, ?_⟩
  · intro l hl
    rcases mem_append.1 hl with hl | hl
    · exact hlines l hl
    · rw [mem_singleton.1 hl]
      exact hz
  · rw [foldl_append, foldl_cons, foldl_nil]
    generalize (lines.foldl (fun object l => (object.processHeader l.1 l.2).1) start) = object
    have hmem : Env.calm.mem = true := rfl
    unfold Object.processHeader
    dsimp only
    rw [hstarts, if_neg (by simp [hmem]), if_neg hne]
    rfl

/-! ## Lines -/

namespace Cursor

variable {behind s : Bytes} {lines : List Bytes}

/-- Some lines, with the memory behind them. -/
def ofLines (behind : Bytes) (lines : List Bytes) : Cursor := .start (text 0 lines) behind

@[simp] theorem line_ofLines (h : 0 ∉ s) : (Cursor.ofLines behind (s :: lines)).line = s := by
  unfold Cursor.ofLines start line
  rw [Terminated.text_cons, append_assoc, cons_append, Terminated.line_append h]

@[simp] theorem next_ofLines (h : 0 ∉ s) : (Cursor.ofLines behind (s :: lines)).next = Cursor.ofLines behind lines := by
  have hline := @line_ofLines behind s lines h
  unfold next
  rw [hline]
  unfold Cursor.ofLines start
  rw [Terminated.length_text_cons, Terminated.text_cons, append_assoc, cons_append, Terminated.next_append h]
  congr 1
  push_cast
  omega

theorem remaining_ofLines_ne : (Cursor.ofLines behind (s :: lines)).remaining ≠ 0 := by
  unfold Cursor.ofLines start
  rw [Terminated.length_text_cons]
  dsimp only
  omega

end Cursor

/-! ## Headers read back -/

/-- The headers after one more is read back. -/
def reread (headers : List Header) (header : Header) : List Header :=
  (if startsResponse header.1 then [] else headers) ++ [(header.1, header.2.rdropWhile isBlank)]

theorem readHeaders_lines (hmem : env.mem = true) (behind : Bytes) (rest : List Bytes)
    {headers : List Header} :
    ∀ {object : Object P}, (∀ header ∈ headers, WellSplit header) → ∃ object', object.readHeaders env headers.length
            (.ofLines behind (headers.map headerLine ++ rest)) = (object', some (.ofLines behind rest)) ∧
        object'.headers = headers.foldl reread object.headers := by
  induction headers with
  | nil => exact fun _ => ⟨_, rfl, rfl⟩
  | cons header headers ih =>
    intro object hsplit
    have hheader := hsplit header mem_cons_self
    have hstep : ∃ object', object.processHeader env (headerLine header) = (object', .ok ()) ∧
        object'.headers = reread object.headers header := by
      unfold Object.processHeader reread
      dsimp only
      rw [if_neg (by simp [hmem]), splitHeader_headerLine hheader, if_neg hheader.ne_nil, startsResponse_headerLine]
      refine ⟨_, rfl, ?_⟩
      dsimp only
      split <;> rfl
    obtain ⟨object', hcall, hheaders⟩ := hstep
    obtain ⟨object'', hread, hfold⟩ := @ih object' fun h hmem =>
      hsplit h (mem_cons_of_mem header hmem)
    refine ⟨object'', ?_, ?_⟩
    · rw [map_cons, cons_append, length_cons]
      unfold Object.readHeaders
      rw [Cursor.line_ofLines (notMem_headerLine hheader), hcall, Cursor.next_ofLines (notMem_headerLine hheader)]
      exact hread
    · rw [hfold, hheaders]
      rfl

theorem foldl_reread {headers : List Header} :
    ∀ {acc : List Header}, (∀ header ∈ headers, startsResponse header.1 = false) →
      headers.foldl reread acc = acc ++ headers.map fun header => (header.1, header.2.rdropWhile isBlank) := by
  induction headers with
  | nil => exact fun _ => (append_nil _).symm
  | cons header headers ih =>
    intro acc h
    rw [foldl_cons, ih fun h' hmem => h h' (mem_cons_of_mem header hmem)]
    unfold reread
    rw [h header mem_cons_self]
    simp

theorem length_foldl_reread {headers : List Header} :
    ∀ {acc : List Header}, (∃ header ∈ headers, startsResponse header.1 = true) →
      (headers.foldl reread acc).length ≤ headers.length := by
  have hle : ∀ (headers acc : List Header), (headers.foldl reread acc).length ≤ acc.length + headers.length := by
    intro headers
    induction headers with
    | nil => exact fun acc => Nat.le_refl _
    | cons header headers ih =>
      intro acc
      have hfirst : (reread acc header).length ≤ acc.length + 1 := by
        unfold reread
        split <;> simp
      have := ih (reread acc header)
      rw [foldl_cons, length_cons]
      omega
  induction headers with
  | nil =>
    rintro acc ⟨header, hmem, -⟩
    cases hmem
  | cons header headers ih =>
    rintro acc ⟨header', hmem, hstarts⟩
    rw [foldl_cons, length_cons]
    rcases mem_cons.1 hmem with rfl | hmem
    · have := hle headers (reread acc header')
      unfold reread at this ⊢
      rw [hstarts, if_pos rfl] at this ⊢
      simp only [nil_append, length_singleton] at this ⊢
      omega
    · exact Nat.le_succ_of_le (ih ⟨header', hmem, hstarts⟩)

/-- No value ends in white space, and nothing but the first header starts a response. -/
def Settled (headers : List Header) : Prop :=
  (∀ header ∈ headers, header.2.rdropWhile isBlank = header.2) ∧
    ∀ header ∈ headers.tail, startsResponse header.1 = false

theorem foldl_reread_eq_iff {headers : List Header} : headers.foldl reread [] = headers ↔ Settled headers := by
  cases headers with
  | nil => exact iff_of_true rfl ⟨by simp, by simp⟩
  | cons header headers =>
    have hfirst : reread [] header = [(header.1, header.2.rdropWhile isBlank)] := by
      unfold reread
      rw [ite_self, nil_append]
    rw [foldl_cons, hfirst]
    by_cases hstarts : ∃ header ∈ headers, startsResponse header.1 = true
    · constructor
      · intro h
        have := @length_foldl_reread headers [(header.1, header.2.rdropWhile isBlank)] hstarts
        rw [h, length_cons] at this
        omega
      · rintro ⟨-, htail⟩
        obtain ⟨header', hmem, htrue⟩ := hstarts
        rw [htail header' hmem] at htrue
        cases htrue
    · have htail : ∀ header ∈ headers, startsResponse header.1 = false := by
        intro header' hmem
        by_contra hne
        exact hstarts ⟨header', hmem, by simpa using hne⟩
      rw [foldl_reread htail]
      have hmap : [(header.1, header.2.rdropWhile isBlank)] ++
          headers.map (fun header => (header.1, header.2.rdropWhile isBlank)) =
          (header :: headers).map fun header => (header.1, header.2.rdropWhile isBlank) := rfl
      have hself : ((header :: headers).map fun header => header) = header :: headers := map_id' _
      rw [hmap]
      constructor
      · intro h
        refine ⟨fun header' hmem => ?_, htail⟩
        exact congrArg Prod.snd (map_inj_left.1 (h.trans hself.symm) header' hmem)
      · rintro ⟨htrim, -⟩
        have heach : ∀ header' ∈ header :: headers,
            (header'.1, header'.2.rdropWhile isBlank) = header' := fun header' hmem =>
          Prod.ext rfl (htrim header' hmem)
        exact (map_congr_left heach).trans hself

/-! ## Certificates read back -/

/-- What is relied on for the encoding of a certificate's data. -/
structure Base64.Encodes (codec : Base64) (der : Bytes) : Prop where
  length : (codec.encode der).length = 4 * ((der.length + 2) / 3)
  nul : 0 ∉ codec.encode der
  decode : codec.decode (codec.encode der) = some der

/-- The lines of a certificate. -/
def certLines (codec : Base64) (cert : Cert) : List Bytes := [formatNat cert.1, derLine codec cert.2]

/-- A certificate as it is read back. -/
def rereadCert (cert : Cert) : Cert :=
  (if cert.1 > SSL_CERT_ERR_MAX_KNOWN then SSL_CERT_ERR_UNKNOWN else cert.1, cert.2)

variable {codec : Base64}

theorem notMem_derLine {der : Bytes} (h : codec.Encodes der) : 0 ∉ derLine codec der := by
  unfold derLine
  split
  · exact not_mem_nil
  · exact h.nul

theorem derLine_eq_nil_iff {der : Bytes} (h : codec.Encodes der) : derLine codec der = [] ↔ der = [] := by
  unfold derLine
  constructor
  · intro hnil
    by_contra hne
    rw [if_neg hne] at hnil
    have hlen := h.length
    rw [hnil, length_nil] at hlen
    have := length_pos_iff.2 hne
    omega
  · exact fun hnil => if_pos hnil

theorem readCerts_lines (behind : Bytes) {certs : CertChain} (herr : ∀ cert ∈ certs, cert.1 ≤ SSL_CERT_ERR_CERT_MISSING)
    (hcodec : ∀ cert ∈ certs, codec.Encodes cert.2) :
    readCerts codec certs.length (.ofLines behind (certs.flatMap (certLines codec))) = some (certs.map rereadCert) := by
  induction certs with
  | nil => rfl
  | cons cert certs ih =>
    have hcert := hcodec cert mem_cons_self
    have hcode : cert.1 ≤ 10 := herr cert mem_cons_self
    have hrest := ih (fun c hc => herr c (mem_cons_of_mem cert hc)) fun c hc => hcodec c (mem_cons_of_mem cert hc)
    have hder : readDer codec (derLine codec cert.2) = some cert.2 := by
      unfold readDer
      by_cases hnil : cert.2 = []
      · rw [if_pos ((derLine_eq_nil_iff hcert).2 hnil), hnil]
      · rw [if_neg fun h => hnil ((derLine_eq_nil_iff hcert).1 h)]
        unfold derLine
        rw [if_neg hnil, hcert.decode]
    have hlines : (cert :: certs).flatMap (certLines codec) =
        formatNat cert.1 :: derLine codec cert.2 :: certs.flatMap (certLines codec) := rfl
    have herror : (if (cert.1 : Int) < 0 ∨ (cert.1 : Int) > SSL_CERT_ERR_MAX_KNOWN then SSL_CERT_ERR_UNKNOWN
        else ((cert.1 : Int)).toNat) = (rereadCert cert).1 := by
      unfold rereadCert
      dsimp only
      by_cases hmax : cert.1 > SSL_CERT_ERR_MAX_KNOWN
      · rw [if_pos hmax, if_pos (.inr (by exact_mod_cast hmax))]
      · rw [if_neg hmax, if_neg (by omega), Int.toNat_natCast]
    rw [hlines, length_cons]
    unfold readCerts
    simp only [Cursor.line_ofLines (notMem_formatNat _), Cursor.next_ofLines (notMem_formatNat _),
      scanInt_formatNat (show cert.1 < 2 ^ 31 by omega), Cursor.line_ofLines (notMem_derLine hcert),
      Cursor.next_ofLines (notMem_derLine hcert), hder, hrest, Option.bind_eq_bind, Option.bind_some, herror]
    rfl

/-- The lines behind the headers. -/
def chainLines (codec : Base64) (certs : CertChain) : List Bytes :=
  formatNat certs.length :: certs.flatMap (certLines codec)

theorem readChain_lines (behind : Bytes) {certs : CertChain} (hdepth : certs.length ≤ MAX_CERT_DEPTH)
    (herr : ∀ cert ∈ certs, cert.1 ≤ SSL_CERT_ERR_CERT_MISSING)
    (hcodec : ∀ cert ∈ certs, codec.Encodes cert.2) :
    readChain codec true (.ofLines behind (chainLines codec certs)) =
      some (if certs = [] then none else some (certs.map rereadCert)) := by
  have hten : certs.length ≤ 10 := hdepth
  unfold readChain chainLines
  rw [if_neg Cursor.remaining_ofLines_ne, Cursor.line_ofLines (notMem_formatNat _),
    Cursor.next_ofLines (notMem_formatNat _), scanSize_formatNat (by omega)]
  simp only [Option.bind_eq_bind, Option.bind_some]
  by_cases hnil : certs = []
  · rw [if_pos (by rw [hnil]; rfl), if_pos hnil]
  · have hcount : ¬ (certs.length > MAX_CERT_DEPTH ∨ true = false) := by
      rintro (hlarge | hfalse)
      · exact absurd hdepth (Nat.not_le_of_lt hlarge)
      · cases hfalse
    rw [if_neg (by simpa using hnil), if_neg hcount, readCerts_lines behind herr hcodec, if_neg hnil]
    rfl

/-! ## What is written -/

/-- The lines of the metadata. -/
def Object.metadataLines (codec : Base64) (object : Object P) : List Bytes :=
  [object.url.url.access, formatNat object.sourceLen, formatInt object.cache.reqTime,
    formatInt object.cache.resTime, formatInt object.cache.finTime, formatNat object.headers.length] ++
    (object.headers.map headerLine ++ chainLines codec (object.chain.getD []))

namespace Output

variable {out : Output} {lines lines' : List Bytes}

theorem write_write : (out.write lines).write lines' = out.write (lines ++ lines') := by
  unfold write
  rw [Terminated.text_append, append_assoc, Output.mk.injEq, length_append]
  exact ⟨rfl, by push_cast; omega⟩

theorem print_eq (out : Output) (s : Bytes) :
    out.print s = if ((text 0 [s]).length : Int) ≤ out.datasize then some (out.write [s]) else none := by
  unfold print
  rw [Terminated.length_text_cons, Terminated.text_nil, length_nil, Nat.add_zero]
  by_cases h : (s.length : Int) + 1 > out.datasize
  · rw [if_pos h, if_neg (by push_cast; omega)]
  · rw [if_neg h, if_pos (by push_cast; omega)]

/-- All of the strings fit in what is left of the buffer. -/
def Fits (out : Output) (lines : List Bytes) : Prop := ((text 0 lines).length : Int) ≤ out.datasize

instance (out : Output) (lines : List Bytes) : Decidable (out.Fits lines) := Int.decLe _ _

/-- What comes of printing some strings of which the last one is checked. -/
def printed (out : Output) (lines : List Bytes) : Option Output :=
  if out.Fits lines then some (out.write lines) else none

theorem fits_write : (out.write lines).Fits lines' ↔ out.Fits (lines ++ lines') := by
  unfold Fits write
  rw [Terminated.text_append, length_append]
  push_cast
  constructor <;> intro h <;> omega

theorem Fits.left (h : out.Fits (lines ++ lines')) : out.Fits lines := by
  unfold Fits at *
  rw [Terminated.text_append, length_append] at h
  push_cast at h
  omega

theorem printed_write : (out.write lines).printed lines' = out.printed (lines ++ lines') := by
  unfold printed
  rw [write_write]
  exact if_congr fits_write rfl rfl

theorem printed_bind {f : Output → Option Output}
    (hf : out.Fits lines → f (out.write lines) = (out.write lines).printed lines') :
    (out.printed lines).bind f = out.printed (lines ++ lines') := by
  by_cases h : out.Fits lines
  · have hsome : out.printed lines = some (out.write lines) := if_pos h
    rw [hsome, Option.bind_some, hf h, printed_write]
  · have hnone : out.printed lines = none := if_neg h
    have hmore : out.printed (lines ++ lines') = none := if_neg fun hall => h hall.left
    rw [hnone, Option.bind_none, hmore]

theorem printed_nil (h : 0 ≤ out.datasize) : out.printed [] = some out := by
  have hfits : out.Fits [] := h
  have hwrite : out.write [] = out := by
    unfold write
    simp
  unfold printed
  rw [if_pos hfits, hwrite]

theorem printed_foldlM {α : Type} {f : Output → α → Option Output} {lines : α → List Bytes}
    (hf : ∀ out a, f out a = out.printed (lines a)) (list : List α) :
    ∀ {out : Output}, 0 ≤ out.datasize → list.foldlM f out = out.printed (list.flatMap lines) := by
  induction list with
  | nil => exact fun h => (printed_nil h).symm
  | cons a list ih =>
    intro out h
    rw [foldlM_cons, hf, flatMap_cons]
    apply printed_bind
    intro hfits
    apply ih
    unfold Fits at hfits
    unfold write
    dsimp only
    omega

end Output

theorem printMetadata_eq (object : Object P) (datasize : Int) : object.printMetadata codec datasize =
      Output.printed { data := [], datasize } (object.metadataLines codec) := by
  have hle : ∀ {out : Output} {lines : List Bytes}, out.Fits lines → 0 ≤ (out.write lines).datasize := by
    intro out lines h
    unfold Output.Fits at h
    unfold Output.write
    dsimp only
    omega
  have hcert : ∀ (out : Output) (cert : Cert),
      ((out.print (formatNat cert.1)).bind fun out => out.print (derLine codec cert.2)) =
        out.printed (certLines codec cert) := by
    intro out cert
    rw [Output.print_eq]
    change _ = out.printed ([formatNat cert.1] ++ [derLine codec cert.2])
    apply Output.printed_bind
    exact fun _ => Output.print_eq ..
  have htimes : ∀ (out : Output) (r s t n : Bytes),
      Output.print (((out.write [r]).write [s]).write [t]) n = out.printed [r, s, t, n] := by
    intro out r s t n
    rw [Output.write_write, Output.write_write, Output.print_eq]
    exact Output.printed_write
  unfold Object.printMetadata Output.printTime
  change (Output.print _ _).bind _ = Output.printed _ ([object.url.url.access] ++ ([formatNat object.sourceLen] ++
      ([formatInt object.cache.reqTime, formatInt object.cache.resTime, formatInt object.cache.finTime,
          formatNat object.headers.length] ++
        (object.headers.map headerLine ++ ([formatNat (object.chain.getD []).length] ++
            (object.chain.getD []).flatMap (certLines codec))))))
  rw [map_eq_flatMap]
  rw [Output.print_eq]
  apply Output.printed_bind
  intro hurl
  change (Output.print _ _).bind _ = _
  rw [Output.print_eq]
  apply Output.printed_bind
  intro hlen
  change (Output.print _ _).bind _ = _
  rw [htimes]
  apply Output.printed_bind
  intro hnumbers
  change Option.bind (List.foldlM _ _ _) _ = _
  rw [Output.printed_foldlM (fun out header => Output.print_eq out (headerLine header)) _ (hle hnumbers)]
  apply Output.printed_bind
  intro hheaders
  change (Output.print _ _).bind _ = _
  rw [Output.print_eq]
  apply Output.printed_bind
  intro hcount
  exact Output.printed_foldlM hcert _ (hle hcount)

/-! ## What is set aside -/

theorem length_formatNat_pos (n : Nat) : 0 < (formatNat n).length := length_pos_iff.2 (formatNat_ne_nil n)

theorem length_formatNat_le_ten {n : Nat} (h : n < 10 ^ 10) : (formatNat n).length ≤ 10 :=
  (length_formatNat_le_iff (by omega)).2 h

theorem length_text_append {lines lines' : List Bytes} :
    (text 0 (lines ++ lines')).length = (text 0 lines).length + (text 0 lines').length := by
  rw [Terminated.text_append, length_append]

theorem length_text_headers (headers : List Header) : (text 0 (headers.map headerLine)).length =
      (headers.map fun header => header.1.length + 1 + (header.2.length + 1)).sum := by
  induction headers with
  | nil => rfl
  | cons header headers ih =>
    have hlen : (headerLine header).length = header.1.length + 1 + header.2.length := by
      unfold headerLine
      rw [length_append, length_append]
      rfl
    rw [map_cons, Terminated.length_text_cons, ih, map_cons, sum_cons, hlen]
    omega

theorem length_derLine {der : Bytes} (h : codec.Encodes der) :
    (derLine codec der).length = 4 * ((der.length + 2) / 3) := by
  unfold derLine
  split
  · next hnil => rw [hnil]; rfl
  · exact h.length

theorem length_text_certs {certs : CertChain} (herr : ∀ cert ∈ certs, cert.1 ≤ SSL_CERT_ERR_CERT_MISSING)
    (hcodec : ∀ cert ∈ certs, codec.Encodes cert.2) :
    (text 0 (certs.flatMap (certLines codec))).length ≤
        (certs.map fun cert => 10 + 1 + 4 * ((cert.2.length + 2) / 3)).sum ∧
      (certs.map fun cert => 10 + 1 + 4 * ((cert.2.length + 2) / 3)).sum ≤
        (text 0 (certs.flatMap (certLines codec))).length + 8 * certs.length := by
  induction certs with
  | nil => exact ⟨Nat.le_refl _, Nat.le_refl _⟩
  | cons cert certs ih =>
    have hcode : cert.1 ≤ 10 := herr cert mem_cons_self
    have hshort : (formatNat cert.1).length ≤ 2 := (length_formatNat_le_iff (by omega)).2 (by omega)
    have hpos := length_formatNat_pos cert.1
    have hder := length_derLine (hcodec cert mem_cons_self)
    have hrest := ih (fun c hc => herr c (mem_cons_of_mem cert hc)) fun c hc => hcodec c (mem_cons_of_mem cert hc)
    have hlines : (cert :: certs).flatMap (certLines codec) =
        formatNat cert.1 :: derLine codec cert.2 :: certs.flatMap (certLines codec) := rfl
    rw [hlines, Terminated.length_text_cons, Terminated.length_text_cons, hder, map_cons, sum_cons, length_cons]
    omega

/-- A URL that `nsurl_create` maps to itself. -/
def Created (mem : Nsurl.Mem) (url : Nsurl.Hashed P) : Prop :=
  Nsurl.Hashed.create P mem url.url.access = .ok url

theorem Created.length {mem : Nsurl.Mem} {url : Nsurl.Hashed P} (h : Created mem url) :
    url.url.length = url.url.string.length := by
  unfold Created Nsurl.Hashed.create at h
  split at h
  · next url' hcreate =>
    have hurl : url' = url.url := congrArg Nsurl.Hashed.url (Except.ok.inj h)
    rw [← hurl]
    exact (Nsurl.create_stitched hcreate).length
  · cases h

/-- An object whose numbers are within the space that is set aside for them. -/
structure Object.Writable (codec : Base64) (mem : Nsurl.Mem) (object : Object P) : Prop where
  url : Created mem object.url
  url_nul : 0 ∉ object.url.url.string
  sourceLen : object.sourceLen < 10 ^ 10
  reqTime : 0 ≤ object.cache.reqTime ∧ object.cache.reqTime ≤ 9999999999
  resTime : 0 ≤ object.cache.resTime ∧ object.cache.resTime ≤ 9999999999
  finTime : 0 ≤ object.cache.finTime ∧ object.cache.finTime ≤ 9999999999
  headers : Accumulated P object.headers
  depth : (object.chain.getD []).length ≤ MAX_CERT_DEPTH
  err : ∀ cert ∈ object.chain.getD [], cert.1 ≤ SSL_CERT_ERR_CERT_MISSING
  codec : ∀ cert ∈ object.chain.getD [], codec.Encodes cert.2

variable {mem : Nsurl.Mem}

theorem length_formatInt {n : Int} (h : 0 ≤ n ∧ n ≤ 9999999999) :
    0 < (formatInt n).length ∧ (formatInt n).length ≤ 10 := by
  obtain ⟨m, rfl⟩ := Int.eq_ofNat_of_zero_le h.1
  rw [formatInt_ofNat]
  exact ⟨length_formatNat_pos m, length_formatNat_le_ten (by omega)⟩

theorem access_eq {url : Nsurl} (h : 0 ∉ url.string) : url.access = url.string := by
  unfold Nsurl.access
  exact cstr_eq_self h

theorem length_headers_le (headers : List Header) :
    headers.length ≤ (headers.map fun header => header.1.length + 1 + (header.2.length + 1)).sum := by
  induction headers with
  | nil => exact Nat.le_refl _
  | cons header headers ih =>
    rw [map_cons, sum_cons, length_cons]
    omega

theorem Object.Writable.allocsize (h : object.Writable codec mem) :
    object.allocsize ≤ (text 0 (object.metadataLines codec)).length + 200 ∧
      (object.allocsize < 2 ^ 31 → (text 0 (object.metadataLines codec)).length ≤ object.allocsize) := by
  have hcerts := length_text_certs h.err h.codec
  have hten : (object.chain.getD []).length ≤ 10 := h.depth
  have hsource := length_formatNat_le_ten h.sourceLen
  have hsource' := length_formatNat_pos object.sourceLen
  have hreq := length_formatInt h.reqTime
  have hres := length_formatInt h.resTime
  have hfin := length_formatInt h.finTime
  have hcount := length_formatNat_pos object.headers.length
  have hdepth : (formatNat (object.chain.getD []).length).length ≤ 10 := length_formatNat_le_ten (by omega)
  have hdepth' := length_formatNat_pos (object.chain.getD []).length
  have hurl : object.url.url.access.length = object.url.url.length := by
    rw [access_eq h.url_nul, h.url.length]
  have hheaders := length_headers_le object.headers
  unfold Object.metadataLines Object.allocsize chainLines
  simp only [length_text_append, Terminated.length_text_cons, Terminated.text_nil, length_nil, length_text_headers]
  constructor
  · omega
  · intro hsmall
    have hcount' := length_formatNat_le_ten (show object.headers.length < 10 ^ 10 by omega)
    omega

theorem Object.Writable.fits_iff (h : object.Writable codec mem) :
    Output.Fits { data := [], datasize := object.datasize } (object.metadataLines codec) ↔
      object.allocsize < 2 ^ 31 := by
  obtain ⟨hge, hle⟩ := h.allocsize
  unfold Output.Fits Object.datasize
  dsimp only
  rw [Int.bmod_def]
  constructor
  · intro hfits
    omega
  · intro hsmall
    have := hle hsmall
    omega

/-! ## The round trip -/

/-- An object that `llcache_object_new` made for the URL, with some cache control data. -/
def Object.fresh (id : Nat) (url : Nsurl.Hashed P) (control : CacheControl) : Object P :=
  { Object.new id url with cache := control }

theorem notMem_formatInt {n : Int} (h : 0 ≤ n ∧ n ≤ 9999999999) : 0 ∉ formatInt n := by
  obtain ⟨m, rfl⟩ := Int.eq_ofNat_of_zero_le h.1
  exact notMem_formatNat m

theorem snptimet_formatInt' {n : Int} (h : 0 ≤ n ∧ n ≤ 9999999999) : snptimet (formatInt n) = some n := by
  obtain ⟨m, rfl⟩ := Int.eq_ofNat_of_zero_le h.1
  exact snptimet_formatInt (by omega)

variable {start : Object P}

theorem Object.Writable.readNumbers (behind : Bytes) (h : object.Writable codec mem)
    (hstart : start.url = object.url) (hcount : object.headers.length < 2 ^ 64) :
    start.readNumbers mem (.ofLines behind (object.metadataLines codec)) =
      if object.url.url.access.length < 7 then none
      else some ({ sourceLen := object.sourceLen
                   reqTime := object.cache.reqTime
                   resTime := object.cache.resTime
                   finTime := object.cache.finTime
                   numHeaders := object.headers.length },
        .ofLines behind (object.headers.map headerLine ++ chainLines codec (object.chain.getD []))) := by
  have hsource : object.sourceLen < 2 ^ 64 := by
    have := h.sourceLen
    omega
  have haccess : 0 ∉ object.url.url.access := by
    rw [access_eq h.url_nul]
    exact h.url_nul
  unfold Object.readNumbers Object.metadataLines
  simp only [cons_append, nil_append, Cursor.line_ofLines haccess,
    Cursor.next_ofLines haccess, Cursor.line_ofLines (notMem_formatNat _),
    Cursor.next_ofLines (notMem_formatNat _), Cursor.line_ofLines (notMem_formatInt h.reqTime),
    Cursor.next_ofLines (notMem_formatInt h.reqTime), Cursor.line_ofLines (notMem_formatInt h.resTime),
    Cursor.next_ofLines (notMem_formatInt h.resTime), Cursor.line_ofLines (notMem_formatInt h.finTime),
    Cursor.next_ofLines (notMem_formatInt h.finTime)]
  split
  · rfl
  · rw [show Nsurl.Hashed.create P mem object.url.url.access = .ok object.url from h.url, hstart]
    dsimp only
    rw [if_neg (by rw [Nsurl.compare_complete.2 rfl]; exact Bool.true_eq_false_eq_False.elim)]
    simp only [scanSize_formatNat hsource, scanSize_formatNat hcount, snptimet_formatInt' h.reqTime,
      snptimet_formatInt' h.resTime, snptimet_formatInt' h.finTime, Option.bind_eq_bind, Option.bind_some]

/-- The object is written, and everything is the same when it is read back into a fresh one. -/
def Object.RoundTrips (codec : Base64) (env : Env) (mem : Nsurl.Mem) (control : CacheControl)
    (object : Object P) : Prop :=
  ∃ data, object.serialiseMetadata codec true = .ok data ∧ data.length ≤ object.allocsize ∧
    ∀ id behind, ∃ read, (Object.fresh id object.url control).readMetadata codec env mem data behind = read ∧
      read.ok = true ∧ read.sourceLen = object.sourceLen ∧ read.cache.reqTime = object.cache.reqTime ∧
      read.cache.resTime = object.cache.resTime ∧ read.cache.finTime = object.cache.finTime ∧
      read.headers = object.headers ∧ read.chain.getD [] = object.chain.getD []

theorem Output.data_write {lines : List Bytes} {datasize : Int} :
    (Output.write { data := [], datasize } lines).data = text 0 lines := nil_append _

theorem Object.Writable.printMetadata (h : object.Writable codec mem) : object.printMetadata codec object.datasize =
      if object.allocsize < 2 ^ 31 then
        some (Output.write { data := [], datasize := object.datasize } (object.metadataLines codec))
      else none := by
  rw [printMetadata_eq]
  exact if_congr h.fits_iff rfl rfl

theorem Object.Writable.serialiseMetadata (h : object.Writable codec mem) : object.serialiseMetadata codec true =
      if object.allocsize < 2 ^ 31 then .ok (text 0 (object.metadataLines codec)) else .error .other := by
  have hprint := h.printMetadata
  unfold Object.serialiseMetadata
  rw [if_neg Bool.true_eq_false_eq_False.elim]
  by_cases hsmall : object.allocsize < 2 ^ 31
  · rw [if_pos hsmall] at hprint ⊢
    rw [hprint]
    exact congrArg Except.ok Output.data_write
  · rw [if_neg hsmall] at hprint ⊢
    rw [hprint]

theorem headers_lt (hsmall : object.allocsize < 2 ^ 31) : object.headers.length < 2 ^ 64 := by
  have := length_headers_le object.headers
  unfold Object.allocsize at hsmall
  omega

theorem Object.Writable.readMetadata (h : object.Writable codec mem) (hmem : env.mem = true)
    (hsmall : object.allocsize < 2 ^ 31) (hlong : ¬ object.url.url.access.length < 7) (id : Nat)
    (behind : Bytes) (control : CacheControl) :
    ∃ read, (Object.fresh id object.url control).readMetadata codec env mem
        (text 0 (object.metadataLines codec)) behind = read ∧
      read.ok = true ∧ read.sourceLen = object.sourceLen ∧ read.cache.reqTime = object.cache.reqTime ∧
      read.cache.resTime = object.cache.resTime ∧ read.cache.finTime = object.cache.finTime ∧
      read.headers = object.headers.foldl reread [] ∧
      read.chain.getD [] = (object.chain.getD []).map rereadCert := by
  have hcount := headers_lt hsmall
  have hnumbers : (Object.fresh id object.url control).readNumbers mem
      (.start (text 0 (object.metadataLines codec)) behind) = _ := h.readNumbers behind rfl hcount
  obtain ⟨object', hread, hheaders⟩ : ∃ object', (Object.fresh id object.url control).readHeaders env _ _ = _ ∧
      _ := readHeaders_lines hmem behind (chainLines codec (object.chain.getD [])) h.headers.wellSplit
  refine ⟨_, rfl, ?_⟩
  unfold Object.readMetadata
  rw [hnumbers, if_neg hlong]
  dsimp only
  rw [hread]
  dsimp only
  rw [hmem, readChain_lines behind h.depth h.err h.codec]
  refine ⟨rfl, rfl, rfl, rfl, rfl, hheaders, ?_⟩
  dsimp only
  split
  · next hnil => rw [hnil]; rfl
  · rfl

theorem map_rereadCert_eq_iff {certs : CertChain} :
    certs.map rereadCert = certs ↔ ∀ cert ∈ certs, cert.1 ≤ SSL_CERT_ERR_MAX_KNOWN := by
  have hself : certs.map (fun cert => cert) = certs := map_id' _
  have heach : ∀ cert : Cert, rereadCert cert = cert ↔ cert.1 ≤ SSL_CERT_ERR_MAX_KNOWN := by
    intro cert
    unfold rereadCert
    by_cases hmax : cert.1 > SSL_CERT_ERR_MAX_KNOWN
    · rw [if_pos hmax]
      refine iff_of_false (fun h => ?_) (Nat.not_le_of_lt hmax)
      have hcode : SSL_CERT_ERR_UNKNOWN = cert.1 := congrArg Prod.fst h
      rw [← hcode] at hmax
      exact absurd hmax (by decide)
    · rw [if_neg hmax]
      exact iff_of_true rfl (Nat.le_of_not_lt hmax)
  constructor
  · intro h cert hmem
    exact (heach cert).1 (map_inj_left.1 (h.trans hself.symm) cert hmem)
  · intro h
    exact (map_congr_left fun cert hmem => (heach cert).2 (h cert hmem)).trans hself

theorem Object.RoundTrips.settled (h : object.Writable codec mem) (hmem : env.mem = true)
    {control : CacheControl} (hr : object.RoundTrips codec env mem control) :
    object.allocsize < 2 ^ 31 ∧ 7 ≤ object.url.url.access.length ∧ Llcache.Settled object.headers ∧
      ∀ cert ∈ object.chain.getD [], cert.1 ≤ SSL_CERT_ERR_MAX_KNOWN := by
  obtain ⟨data, hdata, -, hread⟩ := hr
  have hserialise := h.serialiseMetadata
  have hsmall : object.allocsize < 2 ^ 31 := by
    by_contra hlarge
    rw [hserialise, if_neg hlarge] at hdata
    cases hdata
  rw [hserialise, if_pos hsmall] at hdata
  cases hdata
  obtain ⟨read, heq, hok, -, -, -, -, hheaders, hchain⟩ := hread 0 []
  by_cases hlong : object.url.url.access.length < 7
  · have hnumbers : (Object.fresh 0 object.url control).readNumbers mem
        (.start (text 0 (object.metadataLines codec)) []) = _ := h.readNumbers [] rfl (headers_lt hsmall)
    unfold Object.readMetadata at heq
    rw [hnumbers, if_pos hlong] at heq
    rw [← heq] at hok
    cases hok
  · obtain ⟨read', heq', -, -, -, -, -, hheaders', hchain'⟩ := h.readMetadata hmem hsmall hlong 0 [] control
    obtain rfl := heq'.symm.trans heq
    exact ⟨hsmall, Nat.le_of_not_lt hlong, foldl_reread_eq_iff.1 (hheaders'.symm.trans hheaders),
      map_rereadCert_eq_iff.1 (hchain'.symm.trans hchain)⟩

/-- Metadata is read back if it is not too long, no value of a header ends in white space, no header but
the first one looks like a status line, and no certificate has an error from behind the last known one. -/
theorem roundTrips_iff (h : object.Writable codec mem) (hmem : env.mem = true) (control : CacheControl) :
    object.RoundTrips codec env mem control ↔
      object.allocsize < 2 ^ 31 ∧ 7 ≤ object.url.url.access.length ∧ Llcache.Settled object.headers ∧
        ∀ cert ∈ object.chain.getD [], cert.1 ≤ SSL_CERT_ERR_MAX_KNOWN := by
  constructor
  · exact fun hr => hr.settled h hmem
  · rintro ⟨hsmall, hlong, hheaders, hcerts⟩
    refine ⟨_, h.serialiseMetadata.trans (if_pos hsmall), h.allocsize.2 hsmall, fun id behind => ?_⟩
    obtain ⟨read, heq, hok, hlen, hreq, hres, hfin, hheaders', hchain'⟩ :=
      h.readMetadata hmem hsmall (Nat.not_lt_of_le hlong) id behind control
    exact ⟨read, heq, hok, hlen, hreq, hres, hfin, hheaders'.trans (foldl_reread_eq_iff.2 hheaders),
      hchain'.trans (map_rereadCert_eq_iff.2 hcerts)⟩

theorem exists_created : ∃ url : Nsurl.Hashed Platform.plain,
    Created (fun _ => 0) url ∧ url.url.string = str "http://a/" ∧ 7 ≤ url.url.access.length := by
  obtain ⟨url, hurl, hstring⟩ := Nsurl.exists_ok_of_any
    (x := Nsurl.Hashed.create Platform.plain (fun _ => 0) (str "http://a/"))
    (p := fun u => u.url.string == str "http://a/") (by decide +kernel)
  have hstring : url.url.string = str "http://a/" := eq_of_beq hstring
  have haccess : url.url.access = str "http://a/" := by
    rw [access_eq (by rw [hstring]; decide), hstring]
  refine ⟨url, ?_, hstring, ?_⟩
  · unfold Created
    rw [haccess]
    exact hurl
  · rw [haccess]
    decide

/-- An encoding of some data. -/
def Base64.one (der text : Bytes) : Base64 where
  encode _ := text
  decode _ := some der

/-- A finished object with one header and one certificate. -/
def Object.small (url : Nsurl.Hashed P) (header : Header) (cert : Cert) : Object P :=
  { Object.new 0 url with
    sourceLen := 3
    cache := { CacheControl.zero with reqTime := 7, resTime := 8, finTime := 9 }
    headers := [header]
    chain := some [cert] }

theorem Object.small_writable {url : Nsurl.Hashed Platform.plain} (hurl : Created (fun _ => 0) url)
    (hstring : url.url.string = str "http://a/") {line : Bytes} (hz : 0 ∉ line)
    (hne : (splitHeader line).1 ≠ []) (hstarts : startsResponse line = false) :
    (Object.small url (splitHeader line) (2, [1, 2, 3])).Writable (.one [1, 2, 3] (str "AQID")) fun _ => 0 where
  url := hurl
  url_nul := by
    change 0 ∉ url.url.string
    rw [hstring]
    decide
  sourceLen := show 3 < 10 ^ 10 by decide
  reqTime := show (0 : Int) ≤ 7 ∧ (7 : Int) ≤ 9999999999 by decide
  resTime := show (0 : Int) ≤ 8 ∧ (8 : Int) ≤ 9999999999 by decide
  finTime := show (0 : Int) ≤ 9 ∧ (9 : Int) ≤ 9999999999 by decide
  headers := (Accumulated.nil (Object.new 0 url) rfl).append hz hne hstarts
  depth := show 1 ≤ 10 by decide
  err := by
    intro cert hmem
    obtain rfl := mem_singleton.1 hmem
    decide
  codec := by
    intro cert hmem
    obtain rfl := mem_singleton.1 hmem
    exact ⟨by decide, by decide, rfl⟩

theorem Object.small_allocsize {url : Nsurl.Hashed Platform.plain} (hurl : Created (fun _ => 0) url)
    (hstring : url.url.string = str "http://a/") {header : Header}
    (hheader : header.1.length + header.2.length < 100) :
    (Object.small url header (2, [1, 2, 3])).allocsize < 2 ^ 31 := by
  have hlen : url.url.length = 9 := by
    rw [hurl.length, hstring]
    rfl
  change 5 * (10 + 1) + (header.1.length + 1 + (header.2.length + 1) + 0) + (url.url.length + 1) + (10 + 1) +
    (10 + 1 + 4 * ((3 + 2) / 3) + 0) < 2 ^ 31
  omega

/-- A header, the three times and a certificate are read back. -/
theorem roundTrips_small : ∃ object : Object Platform.plain,
    object.headers = [(str "A", str "b")] ∧ object.chain = some [(2, [1, 2, 3])] ∧
      object.RoundTrips (.one [1, 2, 3] (str "AQID")) .calm (fun _ => 0) .zero := by
  obtain ⟨url, hurl, hstring, hlong⟩ := exists_created
  have hline : splitHeader (str "A: b") = (str "A", str "b") := by decide
  have hwritable := Object.small_writable hurl hstring (show 0 ∉ str "A: b" by decide) (by decide) (by decide)
  rw [hline] at hwritable
  have hsmall : (Object.small url (str "A", str "b") (2, [1, 2, 3])).allocsize < 2 ^ 31 :=
    Object.small_allocsize hurl hstring (by decide)
  refine ⟨_, rfl, rfl, (roundTrips_iff hwritable rfl .zero).2 ⟨hsmall, hlong, ?_, ?_⟩⟩
  · constructor
    · intro header hmem
      obtain rfl := mem_singleton.1 hmem
      decide
    · intro header hmem
      cases hmem
  · intro cert hmem
    obtain rfl := mem_singleton.1 hmem
    decide

/-- The white space behind the value of a header with white space in front of it is lost. -/
theorem not_roundTrips : ∃ object : Object Platform.plain,
    object.headers = [splitHeader (str " A: b ")] ∧
      object.Writable (.one [1, 2, 3] (str "AQID")) (fun _ => 0) ∧
      ¬ object.RoundTrips (.one [1, 2, 3] (str "AQID")) .calm (fun _ => 0) .zero := by
  obtain ⟨url, hurl, hstring, -⟩ := exists_created
  have hwritable := Object.small_writable hurl hstring (show 0 ∉ str " A: b " by decide) (by decide) (by decide)
  refine ⟨_, rfl, hwritable, ?_⟩
  intro hr
  have hsettled := (hr.settled hwritable rfl).2.2.1
  exact absurd (hsettled.1 _ mem_cons_self) (by decide)

end Nami.Llcache
