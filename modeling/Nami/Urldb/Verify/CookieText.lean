import Nami.Urldb.Cookie

/-!
# When the cookie string is complete

Both functions ask for the room that a cookie takes with everything quoted. This leaves out the terminator, so that a
cookie which takes all of it in a buffer that has just grown counts as truncated, and there is no string at all.
-/

namespace Nami.Urldb

open List
open Ascii

variable {pieces : Cookie → List Bytes} {cookies : List Cookie} {c : Cookie} {b b' : CookieBuf} {alloc used : Nat}

/-! ## The text of a cookie -/

/-- What `concat_netscape_cookie` writes. -/
def netscapePieces (c : Cookie) : List Bytes :=
  [str "; " ++ c.name ++ str "=", if c.valueWasQuoted then quote c.value else c.value]

/-- What `concat_rfc2965_cookie` writes. -/
def rfc2965Pieces (c : Cookie) : List Bytes :=
  [str "; " ++ c.name ++ str "=", if c.valueWasQuoted then quote c.value else quoteSeparators c.value] ++
    (if c.pathFromSet then [str "; $Path=" ++ quoteSeparators c.path] else []) ++
    (if c.domainFromSet then [str "; $Domain=" ++ quoteSeparators c.domain] else [])

/-- `name=value`, and the value in quotes when it was quoted. -/
def netscapeText (c : Cookie) : Bytes :=
  c.name ++ str "=" ++ if c.valueWasQuoted then quote c.value else c.value

theorem netscapePieces_flatten (c : Cookie) : (netscapePieces c).flatten = str "; " ++ netscapeText c := by
  simp [netscapePieces, netscapeText]

theorem length_quote (s : Bytes) : (quote s).length = s.length + 2 := by
  unfold quote
  have hquote : (str "\"").length = 1 := rfl
  simp only [length_append]
  omega

theorem length_quoteSeparators_le (s : Bytes) : (quoteSeparators s).length ≤ s.length + 2 := by
  unfold quoteSeparators
  split
  · exact (length_quote s).le
  · exact Nat.le_add_right _ _

theorem length_value_le {quoted : Bool} {s t : Bytes} (h : t.length ≤ s.length + 2) :
    (if quoted then quote s else t).length ≤ s.length + 2 := by
  split
  · exact (length_quote s).le
  · exact h

theorem netscapePieces_le (c : Cookie) (used : Nat) : used + (netscapePieces c).flatten.length ≤ maxLen used c := by
  have hvalue := @length_value_le c.valueWasQuoted c.value c.value (Nat.le_add_right _ _)
  have hsep : (str "; ").length = 2 := rfl
  have heq : (str "=").length = 1 := rfl
  simp only [netscapePieces_flatten, netscapeText, length_append]
  unfold maxLen
  omega

theorem rfc2965Pieces_le (c : Cookie) (used : Nat) : used + (rfc2965Pieces c).flatten.length ≤ maxLen used c := by
  have hvalue := @length_value_le c.valueWasQuoted c.value _ (length_quoteSeparators_le c.value)
  have hsep : (str "; ").length = 2 := rfl
  have heq : (str "=").length = 1 := rfl
  have hpath : (if c.pathFromSet then [str "; $Path=" ++ quoteSeparators c.path] else []).flatten.length ≤
      if c.pathFromSet then 8 + c.path.length + 2 else 0 := by
    have := length_quoteSeparators_le c.path
    have hattr : (str "; $Path=").length = 8 := rfl
    split
    · simp only [flatten_cons, flatten_nil, append_nil, length_append]
      omega
    · exact le_rfl
  have hdomain : (if c.domainFromSet then [str "; $Domain=" ++ quoteSeparators c.domain] else []).flatten.length ≤
      if c.domainFromSet then 10 + c.domain.length + 2 else 0 := by
    have := length_quoteSeparators_le c.domain
    have hattr : (str "; $Domain=").length = 10 := rfl
    split
    · simp only [flatten_cons, flatten_nil, append_nil, length_append]
      omega
    · exact le_rfl
  unfold rfc2965Pieces maxLen
  simp only [flatten_append, flatten_cons, flatten_nil, append_nil, length_append]
  omega

/-! ## One cookie -/

theorem writePieces_eq (l : List Bytes) (buf : Bytes) (h : used < alloc) : writePieces alloc l (buf, used) =
    if used + l.flatten.length < alloc then some (buf ++ l.flatten, used + l.flatten.length) else none := by
  induction l generalizing buf used with
  | nil => simp [writePieces, h]
  | cons piece rest ih =>
    unfold writePieces
    rw [flatten_cons, length_append, ← Nat.add_assoc, ← append_assoc]
    by_cases hfit : used + piece.length < alloc
    · rw [if_neg (by omega)]
      exact ih _ hfit
    · rw [if_pos (by omega), if_neg (by omega)]

/-- Where the buffer ends when a cookie is written. -/
def grown (c : Cookie) (used alloc : Nat) : Nat := max alloc (maxLen used c)

/-- The text of the cookie is shorter than what is estimated for it, or the estimate is below the end of the buffer. -/
def HasRoom (pieces : Cookie → List Bytes) (c : Cookie) (used alloc : Nat) : Prop :=
  used + (pieces c).flatten.length = maxLen used c → maxLen used c < alloc

theorem concatPieces_eq (hle : used + (pieces c).flatten.length ≤ maxLen used c) (h : used < alloc) (text : Bytes) :
    (HasRoom pieces c used alloc → concatPieces c (pieces c) { text, used, alloc } = some
        { text := text ++ (pieces c).flatten, used := used + (pieces c).flatten.length, alloc := grown c used alloc }) ∧
    (¬ HasRoom pieces c used alloc → concatPieces c (pieces c) { text, used, alloc } = none) := by
  have hused : used < grown c used alloc := h.trans_le (Nat.le_max_left _ _)
  have hdef : concatPieces c (pieces c) { text, used, alloc } =
      (writePieces (grown c used alloc) (pieces c) (text, used)).map fun s =>
        { text := s.1, used := s.2, alloc := grown c used alloc } := by
    unfold grown
    rw [max_def]
    rfl
  rw [hdef, writePieces_eq _ _ hused]
  unfold HasRoom
  constructor
  · intro hroom
    rw [if_pos]
    · rfl
    · unfold grown
      omega
  · intro hroom
    rw [Classical.not_imp] at hroom
    rw [if_neg]
    · rfl
    · unfold grown
      omega

/-! ## All cookies -/

/-- Every cookie has room where it is written. -/
def AllHaveRoom (pieces : Cookie → List Bytes) : List Cookie → Nat → Nat → Prop
  | [], _, _ => True
  | c :: cookies, used, alloc => HasRoom pieces c used alloc ∧
      AllHaveRoom pieces cookies (used + (pieces c).flatten.length) (grown c used alloc)

variable (hle : ∀ c used, used + (pieces c).flatten.length ≤ maxLen used c)
include hle

theorem HasRoom.lt_grown (hroom : HasRoom pieces c used alloc) :
    used + (pieces c).flatten.length < grown c used alloc := by
  have := hle c used
  unfold HasRoom at hroom
  unfold grown
  omega

theorem concatCookies_of_room (h : used < alloc) (text : Bytes) (hroom : AllHaveRoom pieces cookies used alloc) :
    ∃ alloc', concatCookies (fun c => concatPieces c (pieces c)) cookies { text, used, alloc } = some
      { text := text ++ cookies.flatMap fun c => (pieces c).flatten,
        used := used + (cookies.flatMap fun c => (pieces c).flatten).length, alloc := alloc' } := by
  induction cookies generalizing text used alloc with
  | nil => exact ⟨alloc, by simp [concatCookies]⟩
  | cons c cookies ih =>
    obtain ⟨hc, hrest⟩ := hroom
    obtain ⟨alloc', h'⟩ := ih (hc.lt_grown hle) (text ++ (pieces c).flatten) hrest
    refine ⟨alloc', ?_⟩
    unfold concatCookies at h' ⊢
    simp only [foldlM_cons]
    rw [(concatPieces_eq (hle c used) h text).1 hc, Option.bind_eq_bind, Option.bind_some, h', flatMap_cons,
      append_assoc, length_append, Nat.add_assoc]

theorem concatCookies_of_no_room (h : used < alloc) (text : Bytes) (hroom : ¬ AllHaveRoom pieces cookies used alloc) :
    concatCookies (fun c => concatPieces c (pieces c)) cookies { text, used, alloc } = none := by
  induction cookies generalizing text used alloc with
  | nil => exact absurd trivial hroom
  | cons c cookies ih =>
    unfold concatCookies at ih ⊢
    simp only [foldlM_cons]
    by_cases hc : HasRoom pieces c used alloc
    · rw [(concatPieces_eq (hle c used) h text).1 hc, Option.bind_eq_bind, Option.bind_some]
      exact ih (hc.lt_grown hle) _ fun hrest => hroom ⟨hc, hrest⟩
    · rw [(concatPieces_eq (hle c used) h text).2 hc]
      rfl

omit hle

/-! ## The writes -/

/-- A call of `snprintf`: where it writes, the size that it is given, the length of the text, and the end of the
buffer. -/
structure BufferWrite where
  start : Int
  size : Int
  length : Nat
  alloc : Nat

/-- What is written lies in the buffer, the terminator included. -/
def BufferWrite.Inside (w : BufferWrite) : Prop :=
  0 ≤ w.start ∧ 0 < w.size ∧ w.start + min (w.length + 1 : Int) w.size ≤ w.alloc

/-- The calls for the pieces of a cookie. The first that does not fit is the last. -/
def pieceWrites (alloc : Nat) : List Bytes → Nat → List BufferWrite
  | [], _ => []
  | piece :: rest, used =>
    { start := (used : Int) - 1, size := (alloc : Int) - used, length := piece.length, alloc } ::
      if piece.length ≥ alloc - used then [] else pieceWrites alloc rest (used + piece.length)

/-- The calls for all cookies, up to the first that is truncated. -/
def cookieWrites (pieces : Cookie → List Bytes) : List Cookie → CookieBuf → List BufferWrite
  | [], _ => []
  | c :: cookies, b =>
    pieceWrites (grown c b.used b.alloc) (pieces c) b.used ++
      match concatPieces c (pieces c) b with
      | none => []
      | some b => cookieWrites pieces cookies b

/-- The calls of `get_netscape_cookie`. -/
def netscapeWrites (cookies : List Cookie) : List BufferWrite :=
  cookieWrites netscapePieces cookies { text := [], used := 1, alloc := 4096 }

/-- The calls of `get_rfc2965_cookie`. -/
def rfc2965Writes (cookies : List Cookie) (version : UInt32) : List BufferWrite :=
  let text := str "$Version=" ++ versionText version
  { start := 0, size := 4096 - 1, length := text.length, alloc := 4096 } ::
    if text.length ≥ 4096 - 1 then []
    else cookieWrites rfc2965Pieces cookies { text, used := 1 + text.length, alloc := 4096 }

theorem inside_pieceWrites {l : List Bytes} (h : used < alloc) (hpos : 0 < used) :
    ∀ w ∈ pieceWrites alloc l used, w.Inside := by
  induction l generalizing used with
  | nil =>
    intro w hw
    cases hw
  | cons piece rest ih =>
    intro w hw
    rcases mem_cons.1 hw with rfl | hw
    · unfold BufferWrite.Inside
      dsimp only
      omega
    · split at hw
      · cases hw
      · exact ih (by omega) (by omega) w hw

theorem inside_cookieWrites (hle : ∀ c used, used + (pieces c).flatten.length ≤ maxLen used c) (h : used < alloc)
    (hpos : 0 < used) (text : Bytes) : ∀ w ∈ cookieWrites pieces cookies { text, used, alloc }, w.Inside := by
  induction cookies generalizing text used alloc with
  | nil =>
    intro w hw
    cases hw
  | cons c cookies ih =>
    intro w hw
    unfold cookieWrites at hw
    rcases mem_append.1 hw with hw | hw
    · exact inside_pieceWrites (h.trans_le (Nat.le_max_left _ _)) hpos w hw
    · by_cases hc : HasRoom pieces c used alloc
      · rw [(concatPieces_eq (hle c used) h text).1 hc] at hw
        exact ih (hc.lt_grown hle) (Nat.add_pos_left hpos _) _ w hw
      · rw [(concatPieces_eq (hle c used) h text).2 hc] at hw
        cases hw

/-! ## The string -/

theorem flatMap_netscapePieces (c : Cookie) (cookies : List Cookie) :
    ((c :: cookies).flatMap fun c => (netscapePieces c).flatten) =
      str "; " ++ (str "; ").intercalate ((c :: cookies).map netscapeText) := by
  induction cookies generalizing c with
  | nil => simp [netscapePieces_flatten]
  | cons d cookies ih =>
    rw [flatMap_cons, ih, netscapePieces_flatten, append_assoc, map_cons, map_cons, map_cons]
    rfl

theorem getNetscapeCookie_eq_some_iff (h : cookies ≠ []) :
    getNetscapeCookie cookies = some ((str "; ").intercalate (cookies.map netscapeText)) ↔
      AllHaveRoom netscapePieces cookies 1 4096 := by
  have hinit : 1 < 4096 := by decide
  constructor
  · intro hsome
    by_contra hroom
    have hnone := concatCookies_of_no_room netscapePieces_le hinit [] hroom
    unfold getNetscapeCookie at hsome
    rw [show concatNetscapeCookie = fun c => concatPieces c (netscapePieces c) from rfl, hnone] at hsome
    cases hsome
  · intro hroom
    obtain ⟨alloc, hall⟩ := concatCookies_of_room netscapePieces_le hinit [] hroom
    unfold getNetscapeCookie
    rw [show concatNetscapeCookie = fun c => concatPieces c (netscapePieces c) from rfl, hall]
    cases cookies with
    | nil => exact absurd rfl h
    | cons c cookies =>
      rw [flatMap_netscapePieces, nil_append]
      have htwo : (str "; ").length = 2 := rfl
      have hname : 0 < (netscapeText c).length := by
        unfold netscapeText
        have heq : (str "=").length = 1 := rfl
        simp only [length_append]
        omega
      have hlen : (netscapeText c).length ≤ ((str "; ").intercalate ((c :: cookies).map netscapeText)).length := by
        cases cookies with
        | nil => simp
        | cons d cookies => simp [List.intercalate]
      dsimp only
      rw [if_neg]
      · rfl
      · rw [length_append]
        omega

theorem length_versionText_le (version : UInt32) : (versionText version).length ≤ 11 :=
  length_formatInt_le version.toInt32

theorem getRfc2965Cookie_eq_some_iff (version : UInt32) :
    getRfc2965Cookie cookies version = some (str "$Version=" ++ versionText version ++
        cookies.flatMap fun c => (rfc2965Pieces c).flatten) ↔
      AllHaveRoom rfc2965Pieces cookies (1 + (str "$Version=" ++ versionText version).length) 4096 := by
  have hversion := length_versionText_le version
  have hattr : (str "$Version=").length = 9 := rfl
  have hinit : 1 + (str "$Version=" ++ versionText version).length < 4096 := by
    rw [length_append]
    omega
  unfold getRfc2965Cookie
  dsimp only
  rw [if_neg (by omega), show concatRfc2965Cookie = fun c => concatPieces c (rfc2965Pieces c) from rfl]
  constructor
  · intro hsome
    by_contra hroom
    rw [concatCookies_of_no_room rfc2965Pieces_le hinit _ hroom] at hsome
    cases hsome
  · intro hroom
    obtain ⟨alloc, hall⟩ := concatCookies_of_room rfc2965Pieces_le hinit (str "$Version=" ++ versionText version) hroom
    rw [hall]
    rfl

theorem inside_netscapeWrites (cookies : List Cookie) : ∀ w ∈ netscapeWrites cookies, w.Inside :=
  inside_cookieWrites netscapePieces_le (by decide) (by decide) []

theorem inside_rfc2965Writes (cookies : List Cookie) (version : UInt32) :
    ∀ w ∈ rfc2965Writes cookies version, w.Inside := by
  intro w hw
  rcases mem_cons.1 hw with rfl | hw
  · unfold BufferWrite.Inside
    dsimp only
    omega
  · split at hw
    · cases hw
    · exact inside_cookieWrites rfc2965Pieces_le (by omega) (by omega) _ w hw

/-- Nothing is written outside of the buffers, and both strings hold all cookies exactly when each cookie has room in
both. -/
theorem cookieStrings_complete_iff (h : cookies ≠ []) (version : UInt32) :
    (getNetscapeCookie cookies = some ((str "; ").intercalate (cookies.map netscapeText)) ∧
      getRfc2965Cookie cookies version = some (str "$Version=" ++ versionText version ++
        cookies.flatMap fun c => (rfc2965Pieces c).flatten) ∧
      ∀ w ∈ netscapeWrites cookies ++ rfc2965Writes cookies version, w.Inside) ↔
    AllHaveRoom netscapePieces cookies 1 4096 ∧
      AllHaveRoom rfc2965Pieces cookies (1 + (str "$Version=" ++ versionText version).length) 4096 := by
  rw [getNetscapeCookie_eq_some_iff h, getRfc2965Cookie_eq_some_iff]
  constructor
  · rintro ⟨hnetscape, hrfc, -⟩
    exact ⟨hnetscape, hrfc⟩
  · rintro ⟨hnetscape, hrfc⟩
    refine ⟨hnetscape, hrfc, fun w hw => ?_⟩
    rcases mem_append.1 hw with hw | hw
    · exact inside_netscapeWrites cookies w hw
    · exact inside_rfc2965Writes cookies version w hw

/-- The cookie of a header `a="…"`. -/
def quotedCookie (value : Bytes) : Cookie where
  name := str "a"
  value := value
  valueWasQuoted := true
  comment := none
  domainFromSet := false
  domain := str "h.co"
  pathFromSet := false
  path := str "/"
  expires := -1
  secure := false
  httpOnly := false
  version := 0

theorem cookieStrings_complete_quoted :
    getNetscapeCookie [quotedCookie (str "b")] = some (str "a=\"b\"") ∧
      getRfc2965Cookie [quotedCookie (str "b")] 1 = some (str "$Version=1; a=\"b\"") := by
  have hall := (cookieStrings_complete_iff (cons_ne_nil (quotedCookie (str "b")) []) 1).2
    ⟨⟨fun _ => by decide, trivial⟩, ⟨fun _ => by decide +kernel, trivial⟩⟩
  exact ⟨hall.1, hall.2.1⟩

theorem quotedCookie_exact (value : Bytes) (used : Nat) :
    used + (netscapePieces (quotedCookie value)).flatten.length = maxLen used (quotedCookie value) ∧
      maxLen used (quotedCookie value) = used + value.length + 6 := by
  have htext : (netscapePieces (quotedCookie value)).flatten = str "; a=" ++ quote value := by
    simp [netscapePieces, quotedCookie, str]
  have hattr : (str "; a=").length = 4 := rfl
  have hmax : maxLen used (quotedCookie value) = used + value.length + 6 := by
    change used + 2 + 1 + 1 + value.length + 2 + 0 + 0 = _
    omega
  rw [htext, hmax, length_append, length_quote]
  omega

/-- The estimate for the cookie is the size of the buffer. -/
theorem not_cookieStrings_complete : ¬ ∀ cookies : List Cookie, cookies ≠ [] →
    getNetscapeCookie cookies = some ((str "; ").intercalate (cookies.map netscapeText)) := by
  intro h
  have hne := cons_ne_nil (quotedCookie (List.replicate 4089 ('x' : UInt8))) []
  obtain ⟨hexact, hmax⟩ := quotedCookie_exact (List.replicate 4089 ('x' : UInt8)) 1
  obtain ⟨hroom, -⟩ := (getNetscapeCookie_eq_some_iff hne).1 (h _ hne)
  have hlt := hroom hexact
  rw [hmax, length_replicate] at hlt
  omega

end Nami.Urldb
