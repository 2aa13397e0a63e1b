import Nami.Urldb.Cookie

/-!
# When the loop of `urldb_set_cookie` ends

A cookie is read up to a comma, the end of the header, or a line break, which is not consumed. The loop takes a line
break for the last two bytes of the header; at one with more after it every round reads the same nameless cookie again.
-/

namespace Nami.Urldb

open List
open Ascii

variable {P : Platform} {now : Int} {url : Nsurl} {referer : Option Nsurl} {db : Db}
variable {header cur rest scheme path host : Bytes} {st : ParseState}

/-! ## Where a parse stops -/

/-- A line break. -/
abbrev crlf : Bytes := ['\r', '\n']

/-- Where `urldb_parse_cookie` stops. -/
def scanRest (P : Platform) (now : Int) (cur : Bytes) : Bytes := (scanCookie P now none cur .start).2

theorem scanOther_break {c : UInt8} {st' : ParseState} {cur' : Bytes} (h : scanOther c rest st = .break st' cur') :
    cur' = rest := by
  unfold scanOther at h
  split at h
  · cases h
    rfl
  · cases h

theorem scanEquals_break {c : UInt8} {st' : ParseState} {cur' : Bytes} (h : scanEquals c rest st = .break st' cur') :
    cur' = rest := by
  unfold scanEquals at h
  split at h
  · cases h
  · exact scanOther_break h

theorem scanEnd_break {c : UInt8} {st' : ParseState} {cur' : Bytes} (h : scanEnd P now c rest st = .break st' cur') :
    cur' = rest := by
  unfold scanEnd at h
  split at h
  · split at h
    · cases h
    · exact scanEquals_break h
  · exact scanOther_break h

theorem scanQuote_break {p : Option UInt8} {c : UInt8} {st' : ParseState} {cur' : Bytes}
    (h : scanQuote P now p c rest st = .break st' cur') : cur' = rest := by
  unfold scanQuote at h
  split at h
  · cases h
  split at h
  · cases h
  · exact scanEnd_break h

theorem scanByte_break {p : Option UInt8} {c : UInt8} {st' : ParseState} {cur' : Bytes}
    (h : scanByte P now p c rest st = .break st' cur') : cur' = rest := by
  unfold scanByte at h
  split at h
  · split at h
    · cases h
    · exact scanQuote_break h
  · exact scanQuote_break h

theorem scanCookie_stops (P : Platform) (now : Int) (p : Option UInt8) (cur : Bytes) (st : ParseState) :
    (scanCookie P now p cur st).2 <:+ cur ∧ ((scanCookie P now p cur st).2 = [] ∨
      crlf <+: (scanCookie P now p cur st).2 ∨ (scanCookie P now p cur st).2.length < cur.length) := by
  induction cur generalizing p st with
  | nil => exact ⟨suffix_rfl, Or.inl rfl⟩
  | cons c rest ih =>
    have hstep (p : Option UInt8) (st : ParseState) : (scanCookie P now p rest st).2 <:+ c :: rest ∧
        ((scanCookie P now p rest st).2 = [] ∨ crlf <+: (scanCookie P now p rest st).2 ∨
          (scanCookie P now p rest st).2.length < (c :: rest).length) := by
      obtain ⟨hsuf, h⟩ := ih p st
      refine ⟨hsuf.trans (suffix_cons c rest), h.imp id (Or.imp id fun h => ?_)⟩
      rw [length_cons]
      omega
    unfold scanCookie
    split
    · next hbreak =>
      refine ⟨suffix_rfl, Or.inr (Or.inl ?_)⟩
      obtain ⟨rfl, hhead⟩ := hbreak
      obtain ⟨tail, rfl⟩ := List.head?_eq_some_iff.1 hhead
      exact ⟨tail, rfl⟩
    split
    · exact hstep ..
    split
    · exact hstep ..
    · next hb =>
      rw [scanByte_break hb]
      exact ⟨suffix_cons c rest, Or.inr (Or.inr (Nat.lt_succ_self _))⟩

theorem scanCookie_keeps_break (P : Platform) (now : Int) (p : Option UInt8) (line after : Bytes) (st : ParseState) :
    ∃ line', (scanCookie P now p (line ++ crlf ++ after) st).2 = line' ++ crlf ++ after := by
  induction line generalizing p st with
  | nil => exact ⟨[], by simp [scanCookie]⟩
  | cons c line ih =>
    rw [append_assoc, cons_append, ← append_assoc]
    unfold scanCookie
    split
    · exact ⟨c :: line, by simp⟩
    split
    · exact ih ..
    split
    · exact ih ..
    · next hb => exact ⟨line, scanByte_break hb⟩

/-- Some line break of the header is followed by something. -/
def InnerBreak (header : Bytes) : Prop := ∃ line after, after ≠ [] ∧ header = line ++ crlf ++ after

theorem InnerBreak.two_lt (h : InnerBreak cur) : 2 < cur.length := by
  obtain ⟨line, after, hafter, rfl⟩ := h
  have := length_pos_iff.2 hafter
  simp only [length_append, length_cons, length_nil]
  omega

theorem InnerBreak.scanRest (h : InnerBreak cur) : InnerBreak (scanRest P now cur) := by
  obtain ⟨line, after, hafter, rfl⟩ := h
  obtain ⟨line', hrest⟩ := scanCookie_keeps_break P now none line after .start
  exact ⟨line', after, hafter, hrest⟩

theorem InnerBreak.of_suffix (h : InnerBreak rest) (hs : rest <:+ cur) : InnerBreak cur := by
  obtain ⟨line, after, hafter, rfl⟩ := h
  obtain ⟨before, rfl⟩ := hs
  exact ⟨before ++ line, after, hafter, by simp⟩

theorem scanRest_lt (hno : ¬ InnerBreak cur) (h2 : 2 < (scanRest P now cur).length) :
    (scanRest P now cur).length < cur.length := by
  obtain ⟨hsuf, hnil | ⟨tail, htail⟩ | hlt⟩ := scanCookie_stops P now none cur .start
  · unfold scanRest at h2
    rw [hnil] at h2
    exact absurd h2 (by simp)
  · refine absurd (InnerBreak.of_suffix ⟨[], tail, ?_, htail.symm⟩ hsuf) hno
    rintro rfl
    unfold scanRest at h2
    rw [← htail] at h2
    exact absurd h2 (by simp)
  · exact hlt

/-! ## One round -/

/-- The cookie at the cursor passes the checks of the loop. -/
def AcceptedAt (P : Platform) (now : Int) (url : Nsurl) (path host cur : Bytes) : Prop :=
  ∃ draft rest c, parseCookie P now url cur = some (draft, rest) ∧ draft.toCookie = some c ∧
    validCookie P host path c = true

theorem parseCookie_rest {draft : CookieDraft} (h : parseCookie P now url cur = some (draft, rest)) :
    rest = scanRest P now cur := by
  simp only [parseCookie, Option.bind_eq_bind, Option.bind_eq_some_iff, Option.some.injEq, Prod.mk.injEq] at h
  obtain ⟨c, -, -, rfl⟩ := h
  rfl

theorem setCookies_of_accepted (h : AcceptedAt P now url path host cur) (scheme : Bytes) (db : Db) :
    ∃ db', ∀ fuel, setCookies P now url scheme path host (fuel + 1) cur db =
      if 2 < (scanRest P now cur).length then
        setCookies P now url scheme path host fuel (scanRest P now cur) db'
      else some (db', true) := by
  obtain ⟨draft, rest, c, hparse, hc, hvalid⟩ := h
  refine ⟨insertCookie P now c scheme (Nsurl.defragment P url) db, fun fuel => ?_⟩
  obtain rfl := parseCookie_rest hparse
  simp [setCookies, hparse, hc, hvalid]

theorem setCookies_of_not_accepted (h : ¬ AcceptedAt P now url path host cur) (scheme : Bytes) (fuel : Nat) (db : Db) :
    setCookies P now url scheme path host (fuel + 1) cur db = some (db, false) := by
  unfold setCookies
  split
  · rfl
  · next draft rest hparse =>
    split
    · rfl
    · next c hc =>
      rw [if_pos]
      exact Bool.not_eq_true' _ ▸ Bool.eq_false_iff.2 fun hvalid => h ⟨draft, rest, c, hparse, hc, hvalid⟩

/-! ## The rounds -/

/-- The cursors at which the loop reads a cookie, up to the first line break. -/
def cookieStarts (P : Platform) (now : Int) (cur : Bytes) : List Bytes :=
  if _h : (scanRest P now cur).length < cur.length then cur :: cookieStarts P now (scanRest P now cur) else [cur]
termination_by cur.length

/-- Some number of rounds is enough for the loop of `urldb_set_cookie`. -/
def LoopEnds (P : Platform) (now : Int) (url : Nsurl) (scheme path host cur : Bytes) (db : Db) : Prop :=
  ∃ fuel result, setCookies P now url scheme path host fuel cur db = some result

theorem loopEnds_of_not_accepted (h : ¬ AcceptedAt P now url path host cur) (scheme : Bytes) (db : Db) :
    LoopEnds P now url scheme path host cur db :=
  ⟨1, _, setCookies_of_not_accepted h scheme 0 db⟩

theorem loopEnds_of_rest (scheme : Bytes) (h : 2 < (scanRest P now cur).length →
      ∀ db, LoopEnds P now url scheme path host (scanRest P now cur) db) (db : Db) :
    LoopEnds P now url scheme path host cur db := by
  by_cases hacc : AcceptedAt P now url path host cur
  · obtain ⟨db', hround⟩ := setCookies_of_accepted hacc scheme db
    by_cases h2 : 2 < (scanRest P now cur).length
    · obtain ⟨fuel, result, hrest⟩ := h h2 db'
      exact ⟨fuel + 1, result, (hround fuel).trans ((if_pos h2).trans hrest)⟩
    · exact ⟨1, _, (hround 0).trans (if_neg h2)⟩
  · exact loopEnds_of_not_accepted hacc scheme db

theorem loopEnds_of_not_innerBreak (scheme : Bytes) (hno : ¬ InnerBreak cur) (db : Db) :
    LoopEnds P now url scheme path host cur db := by
  induction hn : cur.length using Nat.strong_induction_on generalizing cur db with
  | h n ih =>
    refine loopEnds_of_rest scheme (fun h2 db => ?_) db
    have hsuf := (scanCookie_stops P now none cur .start).1
    exact ih _ (hn ▸ scanRest_lt hno h2) (fun hin => hno (hin.of_suffix hsuf)) db rfl

theorem loopEnds_of_refused (scheme : Bytes) {start : Bytes} (hstart : start ∈ cookieStarts P now cur)
    (hno : ¬ AcceptedAt P now url path host start) (db : Db) : LoopEnds P now url scheme path host cur db := by
  induction hn : cur.length using Nat.strong_induction_on generalizing cur db with
  | h n ih =>
    unfold cookieStarts at hstart
    split at hstart
    · next hlt =>
      rcases mem_cons.1 hstart with rfl | hstart
      · exact loopEnds_of_not_accepted hno scheme db
      · exact loopEnds_of_rest scheme (fun _ db => ih _ (hn ▸ hlt) hstart db rfl) db
    · obtain rfl := mem_singleton.1 hstart
      exact loopEnds_of_not_accepted hno scheme db

theorem setCookies_stuck (scheme : Bytes) (hacc : AcceptedAt P now url path host cur) (h2 : 2 < cur.length)
    (hsame : scanRest P now cur = cur) (fuel : Nat) (db : Db) :
    setCookies P now url scheme path host fuel cur db = none := by
  induction fuel generalizing db with
  | zero => rfl
  | succ fuel ih =>
    obtain ⟨db', hround⟩ := setCookies_of_accepted hacc scheme db
    rw [hround fuel, hsame, if_pos h2]
    exact ih db'

theorem LoopEnds.bound {fuel : Nat} (hends : LoopEnds P now url scheme path host cur db) (hfuel : cur.length < fuel) :
    ∃ result, setCookies P now url scheme path host fuel cur db = some result := by
  induction fuel generalizing cur db with
  | zero => exact absurd hfuel (Nat.not_lt_zero _)
  | succ fuel ih =>
    by_cases hacc : AcceptedAt P now url path host cur
    · obtain ⟨db', hround⟩ := setCookies_of_accepted hacc scheme db
      by_cases h2 : 2 < (scanRest P now cur).length
      · obtain ⟨rounds, result, hrounds⟩ := hends
        have hsuf := (scanCookie_stops P now none cur .start).1
        rcases hsuf.length_le.lt_or_eq with hlt | heq
        · cases rounds with
          | zero => cases hrounds
          | succ rounds =>
            rw [hround rounds, if_pos h2] at hrounds
            rw [hround fuel, if_pos h2]
            exact ih ⟨rounds, result, hrounds⟩ (Nat.lt_of_lt_of_le hlt (Nat.le_of_lt_succ hfuel))
        · have hsame : scanRest P now cur = cur := hsuf.eq_of_length heq
          rw [setCookies_stuck scheme hacc (hsame ▸ h2) hsame] at hrounds
          cases hrounds
      · exact ⟨_, (hround fuel).trans (if_neg h2)⟩
    · exact ⟨_, setCookies_of_not_accepted hacc scheme fuel db⟩

theorem setCookies_eq_none (scheme : Bytes) (hin : InnerBreak cur)
    (hacc : ∀ start ∈ cookieStarts P now cur, AcceptedAt P now url path host start) (fuel : Nat) (db : Db) :
    setCookies P now url scheme path host fuel cur db = none := by
  induction fuel generalizing cur db with
  | zero => rfl
  | succ fuel ih =>
    have hcur : cur ∈ cookieStarts P now cur := by
      unfold cookieStarts
      split <;> exact mem_cons_self
    obtain ⟨db', hround⟩ := setCookies_of_accepted (hacc cur hcur) scheme db
    rw [hround fuel, if_pos (@InnerBreak.scanRest P now cur hin).two_lt]
    apply ih hin.scanRest
    intro start hstart
    apply hacc
    unfold cookieStarts
    split
    · exact mem_cons_of_mem _ hstart
    · next hlt =>
      -- the cursor stays where it is
      have hsuf := (scanCookie_stops P now none cur .start).1
      have hsame : scanRest P now cur = cur := hsuf.eq_of_length_le (Nat.le_of_not_lt hlt)
      rw [hsame] at hstart
      unfold cookieStarts at hstart
      rwa [dif_neg hlt] at hstart

/-! ## `urldb_set_cookie` -/

/-- The loop of `urldb_set_cookie`, when it is reached, comes to an end. -/
def SetCookieEnds (P : Platform) (now : Int) (header : Bytes) (url : Nsurl) (referer : Option Nsurl) (db : Db) :
    Prop :=
  ∀ scheme path host, url.components.scheme = some scheme → url.components.path = some path →
    url.components.host = some host → referer.all (refererMatches P host) →
      LoopEnds P now url scheme path host header db

theorem setCookie_isSome_iff : (setCookie P now header url referer db).isSome ↔
    SetCookieEnds P now header url referer db := by
  constructor
  · intro h scheme path host hscheme hpath hhost href
    obtain ⟨result, hresult⟩ := Option.isSome_iff_exists.1 h
    unfold setCookie at hresult
    rw [hscheme, hpath, hhost] at hresult
    exact ⟨_, result, (if_pos href).symm.trans hresult⟩
  · intro hends
    unfold setCookie
    split
    · next scheme path host hscheme hpath hhost =>
      split
      · next href =>
        obtain ⟨result, hresult⟩ := (hends scheme path host hscheme hpath hhost href).bound (Nat.lt_succ_self _)
        rw [hresult]
        rfl
      · rfl
    · rfl

/-- The URL and its referer lead to the loop, and the cookie at the cursor passes its checks. -/
def TakesCookie (P : Platform) (now : Int) (url : Nsurl) (referer : Option Nsurl) (cur : Bytes) : Prop :=
  ∃ path host, url.components.scheme.isSome ∧ url.components.path = some path ∧ url.components.host = some host ∧
    referer.all (refererMatches P host) ∧ AcceptedAt P now url path host cur

/-- The loop ends unless some line break is followed by something and every cookie that starts at or before the first
line break is taken. -/
theorem setCookieEnds_iff (P : Platform) (now : Int) (header : Bytes) (url : Nsurl) (referer : Option Nsurl) (db : Db) :
    SetCookieEnds P now header url referer db ↔
      ¬ (InnerBreak header ∧ ∀ start ∈ cookieStarts P now header, TakesCookie P now url referer start) := by
  constructor
  · rintro hends ⟨hin, htakes⟩
    have hheader : header ∈ cookieStarts P now header := by
      unfold cookieStarts
      split <;> exact mem_cons_self
    obtain ⟨path, host, hscheme, hpath, hhost, href, -⟩ := htakes header hheader
    obtain ⟨scheme, hscheme⟩ := Option.isSome_iff_exists.1 hscheme
    obtain ⟨fuel, result, hresult⟩ := hends scheme path host hscheme hpath hhost href
    have hacc : ∀ start ∈ cookieStarts P now header, AcceptedAt P now url path host start := by
      intro start hstart
      obtain ⟨path', host', -, hpath', hhost', -, hacc⟩ := htakes start hstart
      obtain rfl : path = path' := Option.some.inj (hpath.symm.trans hpath')
      obtain rfl : host = host' := Option.some.inj (hhost.symm.trans hhost')
      exact hacc
    rw [setCookies_eq_none scheme hin hacc] at hresult
    cases hresult
  · intro hcond scheme path host hscheme hpath hhost href
    by_cases hin : InnerBreak header
    · have hex : ∃ start ∈ cookieStarts P now header, ¬ AcceptedAt P now url path host start := by
        by_contra hall
        push Not at hall
        exact hcond ⟨hin, fun start hstart =>
          ⟨path, host, by simp [hscheme], hpath, hhost, href, hall start hstart⟩⟩
      obtain ⟨start, hstart, hno⟩ := hex
      exact loopEnds_of_refused scheme hstart hno db
    · exact loopEnds_of_not_innerBreak scheme hin db

/-- A script sets a cookie with a line break in it. -/
theorem not_setCookieEnds : ¬ ∀ header url, SetCookieEnds .plain 0 header url none Db.empty := by
  intro h
  obtain ⟨url, -, hnone⟩ := Nsurl.exists_ok_of_any
    (x := Nsurl.create .plain (fun _ => 0) (str "http://www.example.com/"))
    (p := fun url => (setCookie .plain 0 (str "a=b\r\nc=d") url none Db.empty).isNone) (by decide +kernel)
  have hsome := setCookie_isSome_iff.2 (h (str "a=b\r\nc=d") url)
  rw [Option.isNone_iff_eq_none.1 hnone] at hsome
  cases hsome

end Nami.Urldb
