import Nami.Llcache.Verify.Metadata

/-!
# Metadata that cannot be read

`llcache_process_metadata` "must only update object if it is successful". The headers are processed on the
object itself before the certificates are read.
-/

namespace Nami.Llcache

open Option
open List
open Ascii

variable {P : Platform} {codec : Base64} {env : Env} {mem : Nsurl.Mem} {object : Object P}

/-- What the object has of its metadata is as it was. -/
structure Object.Untouched (before after : Object P) : Prop where
  headers : after.headers = before.headers
  cache : after.cache = before.cache
  chain : after.chain = before.chain
  sourceLen : after.sourceLen = before.sourceLen
  storeState : after.storeState = before.storeState

/-- Without success the object is untouched. -/
def Object.FailsUntouched (codec : Base64) (env : Env) (mem : Nsurl.Mem) (object : Object P)
    (fetched : Option Bytes) (behind : Bytes) : Prop :=
  (object.processMetadata codec env mem fetched behind).2 = false →
    object.Untouched (object.processMetadata codec env mem fetched behind).1

/-! ## The lines of the metadata -/

namespace Cursor

/-- `ln` some lines later. -/
def skip (n : Nat) (ln : Cursor) : Cursor := next^[n] ln

theorem skip_skip (m n : Nat) (ln : Cursor) : ln.skip (m + n) = (ln.skip m).skip n := by
  unfold skip
  rw [Nat.add_comm, Function.iterate_add_apply]

/-- Some lines from `ln` on. -/
def takeLines : Nat → Cursor → List Bytes
  | 0, _ => []
  | n + 1, ln => ln.line :: takeLines n ln.next

end Cursor

/-- The lines before the headers are accepted for the object. -/
structure Object.Opens (mem : Nsurl.Mem) (object : Object P) (ln : Cursor) (numHeaders : Nat) : Prop where
  length : 7 ≤ ln.line.length
  url : ∃ url, Nsurl.Hashed.create P mem ln.line = .ok url ∧
    object.url.url.compare url.url Nsurl.COMPLETE = true
  sourceLen : (scanSize (ln.skip 1).line).isSome
  reqTime : (snptimet (ln.skip 2).line).isSome
  resTime : (snptimet (ln.skip 3).line).isSome
  finTime : (snptimet (ln.skip 4).line).isSome
  numHeaders_eq : scanSize (ln.skip 5).line = some numHeaders

/-- What is behind the headers is accepted: nothing, or not more certificates than there may be, each of
them with a number and data that can be decoded. -/
def Cursor.Certified (codec : Base64) (mem : Bool) (ln : Cursor) : Prop :=
  ln.remaining = 0 ∨ ∃ count, scanSize ln.line = some count ∧
    (count = 0 ∨ count ≤ MAX_CERT_DEPTH ∧ mem = true ∧ ∀ i < count,
      (scanInt (ln.skip (2 * i + 1)).line).isSome ∧ (readDer codec (ln.skip (2 * i + 2)).line).isSome)

/-! ## The header lines -/

namespace Object

/-- The object without the headers of an earlier response. -/
def cleared (object : Object P) : Object P :=
  { object with
    cache := { CacheControl.invalidated with reqTime := object.cache.reqTime }
    headers := [] }

/-- The object with a response time. -/
def timed (now : Int) (object : Object P) : Object P :=
  { object with
    cache := { object.cache with resTime := if object.cache.resTime = 0 then now else object.cache.resTime } }

/-- The object with some more headers. -/
def heard (object : Object P) (headers : List Header) : Object P :=
  { object with
    cache := headers.foldl (fun cd header => cd.header header) object.cache
    headers := object.headers ++ headers }

end Object

/-- The headers of some lines. Without memory there are none. -/
def heardHeaders (mem : Bool) (lines : List Bytes) : List Header :=
  if mem then (lines.map splitHeader).filter (fun header => header.1 ≠ []) else []

/-- The lines from the last response start marker on. -/
def finalResponse : List Bytes → Option (List Bytes)
  | [] => none
  | line :: lines => (finalResponse lines).or (if startsResponse line then some (line :: lines) else none)

/-- An object that the processing of some lines leaves as it is: its headers and its cache control data are
those of the last response in them, or there is no response in them and nothing else to set. -/
def Object.Spared (env : Env) (object : Object P) (lines : List Bytes) : Prop :=
  let lines := if env.mem then lines else lines.take 1
  match finalResponse lines with
  | some response =>
    object.headers = heardHeaders env.mem response ∧
      object.cache = (heardHeaders env.mem response).foldl (fun cd header => cd.header header)
        { CacheControl.invalidated with reqTime := object.cache.reqTime, resTime := env.now }
  | none => lines = [] ∨ heardHeaders env.mem lines = [] ∧ (object.cache.resTime ≠ 0 ∨ env.now = 0)

namespace CacheControl

def withResTime (cd : CacheControl) (resTime : Int) : CacheControl := { cd with resTime }

theorem parseCacheControl_times (cd : CacheControl) (value : Bytes) :
    (cd.parseCacheControl value).reqTime = cd.reqTime ∧ (cd.parseCacheControl value).resTime = cd.resTime ∧
      ∀ resTime, (cd.withResTime resTime).parseCacheControl value =
        (cd.parseCacheControl value).withResTime resTime := by
  unfold parseCacheControl
  cases Http.CacheControl.parse value with
  | none => exact ⟨rfl, rfl, fun _ => rfl⟩
  | some cc =>
    refine ⟨?_, ?_, fun resTime => ?_⟩
    · simp only [apply_ite CacheControl.reqTime, ite_self]
    · simp only [apply_ite CacheControl.resTime, ite_self]
    · unfold withResTime
      by_cases hno : cc.noCache = true ∨ cc.noStore = true <;> cases hvalid : cc.maxAgeValid <;>
        simp only [hno, hvalid, Bool.false_eq_true, if_true, if_false]

theorem header_times (header : Header) (cd : CacheControl) :
    (cd.header header).reqTime = cd.reqTime ∧ (cd.header header).resTime = cd.resTime ∧
      ∀ resTime, CacheControl.header header (cd.withResTime resTime) = (cd.header header).withResTime resTime := by
  obtain ⟨hreq, hres, hset⟩ := cd.parseCacheControl_times header.2
  unfold CacheControl.header
  dsimp only
  refine ⟨?_, ?_, fun resTime => ?_⟩
  · cases Time.strntimet false header.2 <;> simp only [apply_ite CacheControl.reqTime, hreq, ite_self]
  · cases Time.strntimet false header.2 <;> simp only [apply_ite CacheControl.resTime, hres, ite_self]
  · cases Time.strntimet false header.2 <;>
      simp only [apply_ite (CacheControl.withResTime · resTime), hset] <;> rfl

theorem foldl_header_times (headers : List Header) : ∀ cd : CacheControl,
    (headers.foldl (fun cd header => cd.header header) cd).reqTime = cd.reqTime ∧
      (headers.foldl (fun cd header => cd.header header) cd).resTime = cd.resTime ∧
      ∀ resTime, headers.foldl (fun cd header => cd.header header) (cd.withResTime resTime) =
        (headers.foldl (fun cd header => cd.header header) cd).withResTime resTime := by
  induction headers with
  | nil => exact fun _ => ⟨rfl, rfl, fun _ => rfl⟩
  | cons header headers ih =>
    intro cd
    obtain ⟨hreq, hres, hset⟩ := cd.header_times header
    obtain ⟨hreq', hres', hset'⟩ := ih (cd.header header)
    refine ⟨hreq'.trans hreq, hres'.trans hres, fun resTime => ?_⟩
    rw [foldl_cons, foldl_cons, hset, hset']

end CacheControl

/-! ## The processing of the lines -/

namespace Object

variable {now : Int} {line : Bytes} {lines : List Bytes} {headers headers' : List Header}

theorem heard_nil : object.heard [] = object := by
  unfold heard
  rw [append_nil]
  rfl

theorem heard_heard : (object.heard headers).heard headers' = object.heard (headers ++ headers') := by
  unfold heard
  rw [foldl_append, append_assoc]

theorem heard_timed : (object.heard headers).timed now = (object.timed now).heard headers := by
  obtain ⟨-, hres, hset⟩ := CacheControl.foldl_header_times headers object.cache
  unfold timed heard
  congr 1
  dsimp only
  rw [hres]
  exact (hset _).symm

theorem timed_timed : (object.timed now).timed now = object.timed now := by
  unfold timed
  congr 2
  dsimp only
  split_ifs <;> rfl

@[simp] theorem cleared_heard : (object.heard headers).cleared = object.cleared := by
  obtain ⟨hreq, -⟩ := CacheControl.foldl_header_times headers object.cache
  unfold cleared heard
  dsimp only
  rw [hreq]

@[simp] theorem cleared_timed : (object.timed now).cleared = object.cleared := rfl

theorem processHeader_eq (hcontrol : env.cacheControl = CacheControl.header) : object.processHeader env line =
      (((if startsResponse line then object.cleared else object).timed env.now).heard (heardHeaders env.mem [line]),
        if env.mem then .ok () else .error .nomem) := by
  unfold Object.processHeader heardHeaders
  rw [hcontrol]
  cases env.mem with
  | false =>
    simp only [if_true, Bool.false_eq_true, if_false, heard_nil]
    rfl
  | true =>
    simp only [Bool.true_eq_false, if_true, if_false, map_cons, map_nil]
    by_cases hne : (splitHeader line).1 = []
    · rw [if_pos hne, filter_cons_of_neg (by simpa using hne), filter_nil, heard_nil]
      rfl
    · rw [if_neg hne, filter_cons_of_pos (by simpa using hne), filter_nil]
      rfl

/-- The object after some lines have been processed on it. -/
def replayed (env : Env) (object : Object P) (lines : List Bytes) : Object P :=
  lines.foldl (fun object line => (object.processHeader env line).1) object

theorem cleared_replayed (hcontrol : env.cacheControl = CacheControl.header) (lines : List Bytes) :
    ∀ object : Object P, (object.replayed env lines).cleared = object.cleared := by
  unfold replayed
  induction lines with
  | nil => exact fun _ => rfl
  | cons line lines ih =>
    intro object
    rw [foldl_cons, ih, processHeader_eq hcontrol]
    dsimp only
    rw [cleared_heard, cleared_timed]
    split <;> rfl

theorem heardHeaders_cons :
    heardHeaders true (line :: lines) = heardHeaders true [line] ++ heardHeaders true lines := by
  unfold heardHeaders
  rw [if_pos rfl, if_pos rfl, if_pos rfl, map_cons, map_singleton, ← filter_append, singleton_append]

theorem replayed_plain (hcontrol : env.cacheControl = CacheControl.header) (hmem : env.mem = true)
    (hlines : ∀ line ∈ lines, startsResponse line = false) :
    ∀ {object : Object P}, object.timed env.now = object →
      object.replayed env lines = object.heard (heardHeaders true lines) := by
  induction lines with
  | nil => exact fun _ => heard_nil.symm
  | cons line lines ih =>
    intro object htimed
    have hstep : (object.processHeader env line).1 = object.heard (heardHeaders true [line]) := by
      rw [processHeader_eq hcontrol, hmem, hlines line mem_cons_self, if_neg Bool.false_eq_true.mp, htimed]
    have hrest := @ih (fun l hl => hlines l (mem_cons_of_mem line hl))
      (object.heard (heardHeaders true [line])) (by rw [heard_timed, htimed])
    unfold replayed at hrest ⊢
    rw [foldl_cons, hstep, hrest, heard_heard, ← heardHeaders_cons]

theorem finalResponse_eq_none (h : finalResponse lines = none) : ∀ line ∈ lines, startsResponse line = false := by
  induction lines with
  | nil => exact fun _ hmem => absurd hmem not_mem_nil
  | cons line lines ih =>
    unfold finalResponse at h
    rw [or_eq_none_iff] at h
    intro l hl
    rcases mem_cons.1 hl with rfl | hl
    · by_contra hstarts
      rw [if_pos (by simpa using hstarts)] at h
      exact absurd h.2 (some_ne_none _)
    · exact ih h.1 l hl

theorem finalResponse_eq_some {response : List Bytes} (h : finalResponse lines = some response) :
    ∃ earlier line later, lines = earlier ++ response ∧ response = line :: later ∧ startsResponse line = true ∧
      ∀ l ∈ later, startsResponse l = false := by
  induction lines with
  | nil => cases h
  | cons line lines ih =>
    unfold finalResponse at h
    cases hlast : finalResponse lines with
    | some response' =>
      rw [hlast, some_or] at h
      cases h
      obtain ⟨earlier, line', later, rfl, hresponse, hline, hlater⟩ := ih hlast
      exact ⟨line :: earlier, line', later, rfl, hresponse, hline, hlater⟩
    | none =>
      rw [hlast, none_or] at h
      split at h
      · next hstarts =>
        cases h
        exact ⟨[], line, lines, rfl, rfl, hstarts, finalResponse_eq_none hlast⟩
      · cases h

theorem replayed_response (hcontrol : env.cacheControl = CacheControl.header) (hmem : env.mem = true)
    {response : List Bytes} (h : finalResponse lines = some response) :
    object.replayed env lines = (object.cleared.timed env.now).heard (heardHeaders true response) := by
  obtain ⟨earlier, line, later, rfl, rfl, hline, hlater⟩ := finalResponse_eq_some h
  have hfirst : ((object.replayed env earlier).processHeader env line).1 =
      (object.cleared.timed env.now).heard (heardHeaders true [line]) := by
    rw [processHeader_eq hcontrol, hmem, if_pos hline, cleared_replayed hcontrol]
  have htimed : ((object.cleared.timed env.now).heard (heardHeaders true [line])).timed env.now =
      (object.cleared.timed env.now).heard (heardHeaders true [line]) := by
    rw [heard_timed, timed_timed]
  have hrest := replayed_plain hcontrol hmem hlater htimed
  unfold replayed at hfirst hrest ⊢
  rw [foldl_append, foldl_cons, hfirst, hrest, heard_heard, ← heardHeaders_cons]

theorem heard_timed_untouched_iff : ((object.timed now).heard headers).headers = object.headers ∧
        ((object.timed now).heard headers).cache = object.cache ↔
      headers = [] ∧ (object.cache.resTime ≠ 0 ∨ now = 0) := by
  have hheaders : ((object.timed now).heard headers).headers = object.headers ++ headers := rfl
  rw [hheaders, append_right_eq_self]
  refine and_congr_right ?_
  rintro rfl
  rw [heard_nil]
  constructor
  · intro hcache
    by_contra hne
    push Not at hne
    have hres := congrArg CacheControl.resTime hcache
    unfold timed at hres
    dsimp only at hres
    rw [if_pos hne.1, hne.1] at hres
    exact hne.2 hres
  · intro hres
    unfold timed
    dsimp only
    split
    · next hzero =>
      have hnow := hres.resolve_left fun h => h hzero
      rw [hnow, ← hzero]
    · rfl

theorem heard_cleared_untouched_iff : ((object.cleared.timed now).heard headers).headers = object.headers ∧
        ((object.cleared.timed now).heard headers).cache = object.cache ↔
      object.headers = headers ∧ object.cache = headers.foldl (fun cd header => cd.header header)
          { CacheControl.invalidated with reqTime := object.cache.reqTime, resTime := now } := by
  have hheaders : ((object.cleared.timed now).heard headers).headers = headers := nil_append _
  have hcache : ((object.cleared.timed now).heard headers).cache = headers.foldl (fun cd header => cd.header header)
        { CacheControl.invalidated with reqTime := object.cache.reqTime, resTime := now } := rfl
  rw [hheaders, hcache, eq_comm, @eq_comm _ object.cache]

theorem spared_iff (hcontrol : env.cacheControl = CacheControl.header) : object.Spared env lines ↔
      (object.replayed env (if env.mem then lines else lines.take 1)).headers = object.headers ∧
        (object.replayed env (if env.mem then lines else lines.take 1)).cache = object.cache := by
  unfold Spared
  cases hmem : env.mem with
  | true =>
    dsimp only
    rw [if_pos rfl]
    cases hlast : finalResponse lines with
    | some response =>
      rw [replayed_response hcontrol hmem hlast]
      exact heard_cleared_untouched_iff.symm
    | none =>
      cases lines with
      | nil => exact iff_of_true (.inl rfl) ⟨rfl, rfl⟩
      | cons line lines =>
        have hplain := finalResponse_eq_none hlast
        have hfirst : (object.processHeader env line).1 = (object.timed env.now).heard (heardHeaders true [line]) := by
          rw [processHeader_eq hcontrol, hmem, hplain line mem_cons_self, if_neg Bool.false_eq_true.mp]
        have htimed : ((object.timed env.now).heard (heardHeaders true [line])).timed env.now =
            (object.timed env.now).heard (heardHeaders true [line]) := by
          rw [heard_timed, timed_timed]
        have hrest := replayed_plain hcontrol hmem (fun l hl => hplain l (mem_cons_of_mem line hl)) htimed
        have hall : object.replayed env (line :: lines) =
            (object.timed env.now).heard (heardHeaders true (line :: lines)) := by
          unfold replayed at hrest ⊢
          rw [foldl_cons, hfirst, hrest, heard_heard, ← heardHeaders_cons]
        rw [hall, heard_timed_untouched_iff]
        exact or_iff_right (cons_ne_nil line lines)
  | false =>
    have hnone : ∀ lines, heardHeaders false lines = [] := fun lines => if_neg Bool.false_ne_true
    dsimp only
    rw [if_neg Bool.false_ne_true]
    cases lines with
    | nil => exact iff_of_true (.inl rfl) ⟨rfl, rfl⟩
    | cons line lines =>
      have hfirst : object.replayed env [line] =
          ((if startsResponse line then object.cleared else object).timed env.now).heard [] := by
        change (object.processHeader env line).1 = _
        rw [processHeader_eq hcontrol, hmem, hnone]
      have htake : (line :: lines).take 1 = [line] := rfl
      rw [htake, hfirst]
      unfold finalResponse
      rw [show finalResponse [] = none from rfl, none_or]
      by_cases hstarts : startsResponse line = true
      · rw [if_pos hstarts, if_pos hstarts]
        dsimp only
        rw [hnone]
        exact heard_cleared_untouched_iff.symm
      · rw [if_neg hstarts, if_neg hstarts, heard_timed_untouched_iff]
        dsimp only
        rw [hnone]
        exact or_iff_right (cons_ne_nil line [])

end Object

/-! ## What is read -/

theorem Object.opens_of_readNumbers {ln rest : Cursor} {numbers : Numbers}
    (h : object.readNumbers mem ln = some (numbers, rest)) :
    rest = ln.skip 6 ∧ object.Opens mem ln numbers.numHeaders := by
  unfold Object.readNumbers at h
  split at h
  · cases h
  · next hlength =>
    split at h
    · cases h
    · next url hurl =>
      split at h
      · cases h
      · next hcompare =>
        simp only [bind_eq_bind, bind_eq_some_iff, Option.some.injEq, Prod.mk.injEq] at h
        obtain ⟨sourceLen, hsource, reqTime, hreq, resTime, hres, finTime, hfin, count, hcount, rfl, rfl⟩ := h
        refine ⟨rfl, Nat.le_of_not_lt hlength, ⟨url, hurl, by simpa using hcompare⟩, ?_, ?_, ?_, ?_, hcount⟩
        · exact isSome_of_eq_some hsource
        · exact isSome_of_eq_some hreq
        · exact isSome_of_eq_some hres
        · exact isSome_of_eq_some hfin

theorem Object.Opens.readNumbers {ln : Cursor} {n : Nat} (h : object.Opens mem ln n) :
    ∃ numbers, object.readNumbers mem ln = some (numbers, ln.skip 6) ∧ numbers.numHeaders = n := by
  obtain ⟨url, hurl, hcompare⟩ := h.url
  obtain ⟨sourceLen, hsource⟩ := isSome_iff_exists.1 h.sourceLen
  obtain ⟨reqTime, hreq⟩ := isSome_iff_exists.1 h.reqTime
  obtain ⟨resTime, hres⟩ := isSome_iff_exists.1 h.resTime
  obtain ⟨finTime, hfin⟩ := isSome_iff_exists.1 h.finTime
  refine ⟨{ sourceLen, reqTime, resTime, finTime, numHeaders := n }, ?_, rfl⟩
  have hlines : scanSize ln.next.line = some sourceLen ∧ snptimet ln.next.next.line = some reqTime ∧
      snptimet ln.next.next.next.line = some resTime ∧ snptimet ln.next.next.next.next.line = some finTime ∧
      scanSize ln.next.next.next.next.next.line = some n :=
    ⟨hsource, hreq, hres, hfin, h.numHeaders_eq⟩
  unfold Object.readNumbers
  rw [if_neg (Nat.not_lt_of_le h.length), hurl]
  dsimp only
  rw [if_neg (by rw [hcompare]; exact Bool.true_eq_false_eq_False.elim)]
  simp only [hlines, bind_eq_bind, bind_some]
  rfl

theorem readCerts_isSome_iff {n : Nat} : ∀ {ln : Cursor}, (readCerts codec n ln).isSome ↔
    ∀ i < n, (scanInt (ln.skip (2 * i)).line).isSome ∧ (readDer codec (ln.skip (2 * i + 1)).line).isSome := by
  induction n with
  | zero => exact iff_of_true rfl fun _ h => absurd h (Nat.not_lt_zero _)
  | succ n ih =>
    intro ln
    have hfirst : (readCerts codec (n + 1) ln).isSome ↔ (scanInt ln.line).isSome ∧ (readDer codec ln.next.line).isSome ∧
          (readCerts codec n ln.next.next).isSome := by
      conv_lhs => unfold readCerts
      cases hcode : scanInt ln.line <;> cases hder : readDer codec ln.next.line <;>
        cases hcerts : readCerts codec n ln.next.next <;> simp [hder, hcerts]
    rw [hfirst, ih]
    constructor
    · rintro ⟨hcode, hder, hrest⟩ i hi
      cases i with
      | zero => exact ⟨hcode, hder⟩
      | succ i => exact hrest i (Nat.lt_of_succ_lt_succ hi)
    · intro h
      exact ⟨(h 0 n.succ_pos).1, (h 0 n.succ_pos).2, fun i hi => h (i + 1) (Nat.succ_lt_succ hi)⟩

theorem readChain_isSome_iff {ln : Cursor} {m : Bool} : (readChain codec m ln).isSome ↔ ln.Certified codec m := by
  unfold readChain Cursor.Certified
  by_cases hend : ln.remaining = 0
  · rw [if_pos hend]
    exact iff_of_true rfl (.inl hend)
  · rw [if_neg hend, or_iff_right hend]
    cases scanSize ln.line with
    | none => simp
    | some count =>
      simp only [bind_eq_bind, bind_some, Option.some.injEq, exists_eq_left']
      by_cases hzero : count = 0
      · rw [if_pos hzero]
        exact iff_of_true rfl (.inl hzero)
      · rw [if_neg hzero, or_iff_right hzero]
        by_cases hbad : count > MAX_CERT_DEPTH ∨ m = false
        · rw [if_pos hbad]
          refine iff_of_false Bool.false_ne_true ?_
          rintro ⟨hdepth, hm, -⟩
          rcases hbad with hbad | hbad
          · exact absurd hdepth (Nat.not_le_of_lt hbad)
          · rw [hm] at hbad
            cases hbad
        · push Not at hbad
          have hm : m = true := by simpa using hbad.2
          rw [if_neg (by rw [not_or]; exact ⟨Nat.not_lt_of_le hbad.1, hbad.2⟩), isSome_map, readCerts_isSome_iff]
          constructor
          · exact fun h => ⟨hbad.1, hm, h⟩
          · exact fun h => h.2.2

theorem Object.readHeaders_mem (hmem : env.mem = true) (hcontrol : env.cacheControl = CacheControl.header)
    {n : Nat} : ∀ {object : Object P} {ln : Cursor},
      object.readHeaders env n ln = (object.replayed env (ln.takeLines n), some (ln.skip n)) := by
  induction n with
  | zero => exact rfl
  | succ n ih =>
    intro object ln
    have hok : (object.processHeader env ln.line).2 = .ok () := by
      rw [processHeader_eq hcontrol, hmem]
      rfl
    unfold Object.readHeaders
    split
    · next object' _ heq =>
      rw [ih]
      have hfirst := congrArg Prod.fst heq
      dsimp only at hfirst
      rw [← hfirst]
      rfl
    · next heq =>
      rw [heq] at hok
      cases hok

theorem Object.readHeaders_noMem (hmem : env.mem = false) (hcontrol : env.cacheControl = CacheControl.header)
    {n : Nat} {ln : Cursor} :
    object.readHeaders env (n + 1) ln = (object.replayed env [ln.line], none) := by
  have herror : (object.processHeader env ln.line).2 = .error .nomem := by
    rw [processHeader_eq hcontrol, hmem]
    rfl
  unfold Object.readHeaders
  split
  · next heq =>
    rw [heq] at herror
    cases herror
  · next heq =>
    have hfirst := congrArg Prod.fst heq
    dsimp only at hfirst
    rw [← hfirst]
    rfl

section Loading

/-- What is read when there is an error with the object as it is then. -/
def Object.failure (object : Object P) : Metadata where
  ok := false
  sourceLen := 0
  sourceAlloc := 0
  cache := object.cache
  headers := object.headers
  chain := none

variable {metadata behind : Bytes} {numbers : Numbers} {object' : Object P} {ln : Cursor}

theorem Object.Opens.unique {n n' : Nat} (h : object.Opens mem ln n) (h' : object.Opens mem ln n') : n' = n :=
  Option.some.inj (h'.numHeaders_eq.symm.trans h.numHeaders_eq)

theorem Object.failsUntouched_of_ok (hok : (object.readMetadata codec env.parsing mem metadata behind).ok = true) :
    object.FailsUntouched codec env mem (some metadata) behind := by
  unfold FailsUntouched processMetadata
  dsimp only
  rw [if_pos hok]
  intro hfails
  cases hfails

theorem Object.failsUntouched_of_failed (hread : object.readMetadata codec env.parsing mem metadata behind =
      object'.failure) :
    object.FailsUntouched codec env mem (some metadata) behind ↔
      object'.headers = object.headers ∧ object'.cache = object.cache := by
  unfold FailsUntouched processMetadata
  dsimp only
  rw [hread]
  constructor
  · exact fun h => ⟨(h rfl).headers, (h rfl).cache⟩
  · exact fun ⟨hheaders, hcache⟩ _ => ⟨hheaders, hcache, rfl, rfl, rfl⟩

variable (codec) in
theorem Object.readMetadata_of_headers (hnumbers : object.readNumbers mem (.start metadata behind) = some (numbers, ln))
    (hheaders : object.readHeaders env numbers.numHeaders ln = (object', none)) :
    object.readMetadata codec env mem metadata behind = object'.failure := by
  unfold Object.readMetadata
  rw [hnumbers]
  dsimp only
  rw [hheaders]
  rfl

variable (codec) in
theorem Object.readMetadata_of_chain {rest : Cursor}
    (hnumbers : object.readNumbers mem (.start metadata behind) = some (numbers, ln))
    (hheaders : object.readHeaders env numbers.numHeaders ln = (object', some rest)) :
    if (readChain codec env.mem rest).isSome then
      (object.readMetadata codec env mem metadata behind).ok = true
    else
      object.readMetadata codec env mem metadata behind = object'.failure := by
  unfold Object.readMetadata
  rw [hnumbers]
  dsimp only
  rw [hheaders]
  cases hchain : readChain codec env.mem rest with
  | none =>
    dsimp only
    rw [hchain]
    exact if_neg Bool.false_ne_true ▸ rfl
  | some chain =>
    dsimp only
    rw [hchain]
    rfl

end Loading

theorem failsUntouched_some_iff {metadata behind : Bytes} : object.FailsUntouched codec env mem (some metadata) behind ↔
      ∀ n, object.Opens mem (.start metadata behind) n →
        (((Cursor.start metadata behind).skip (6 + n)).Certified codec env.mem ∧ (env.mem = true ∨ n = 0)) ∨
        object.Spared env (((Cursor.start metadata behind).skip 6).takeLines n) := by
  have hunique : ∀ {n : Nat} {p : Nat → Prop}, object.Opens mem (.start metadata behind) n →
      ((∀ n, object.Opens mem (.start metadata behind) n → p n) ↔ p n) := by
    intro n p hopens
    exact ⟨fun h => h n hopens, fun h n' hopens' => hopens.unique hopens' ▸ h⟩
  have hcontrol : env.parsing.cacheControl = CacheControl.header := rfl
  cases hnumbers : object.readNumbers mem (.start metadata behind) with
  | none =>
    have hread : object.readMetadata codec env.parsing mem metadata behind = object.failure := by
      unfold Object.readMetadata
      rw [hnumbers]
      rfl
    refine iff_of_true ((Object.failsUntouched_of_failed hread).2 ⟨rfl, rfl⟩) fun n hopens => ?_
    obtain ⟨numbers, hsome, -⟩ := hopens.readNumbers
    rw [hnumbers] at hsome
    cases hsome
  | some read =>
    obtain ⟨numbers, ln⟩ := read
    obtain ⟨rfl, hopens⟩ := Object.opens_of_readNumbers hnumbers
    rw [hunique hopens]
    have hskip : (Cursor.start metadata behind).skip (6 + numbers.numHeaders) =
        ((Cursor.start metadata behind).skip 6).skip numbers.numHeaders := Cursor.skip_skip ..
    rw [hskip]
    generalize hln : (Cursor.start metadata behind).skip 6 = ln at hnumbers
    have hspared : object.Spared env (ln.takeLines numbers.numHeaders) ↔ _ :=
      @Object.spared_iff P env.parsing object (ln.takeLines numbers.numHeaders) hcontrol
    have hmem_eq : env.parsing.mem = env.mem := rfl
    rw [hspared, hmem_eq]
    cases hmem : env.mem with
    | true =>
      have hread := Object.readMetadata_of_chain codec hnumbers (Object.readHeaders_mem (hmem_eq.trans hmem) hcontrol)
      rw [hmem_eq, hmem] at hread
      rw [if_pos rfl]
      by_cases hchain : (readChain codec true (ln.skip numbers.numHeaders)).isSome = true
      · rw [if_pos hchain] at hread
        rw [readChain_isSome_iff] at hchain
        exact iff_of_true (Object.failsUntouched_of_ok hread) (.inl ⟨hchain, .inl rfl⟩)
      · rw [if_neg hchain] at hread
        rw [readChain_isSome_iff] at hchain
        rw [Object.failsUntouched_of_failed hread, or_iff_right fun h => hchain h.1]
    | false =>
      rw [if_neg Bool.false_ne_true]
      cases hcount : numbers.numHeaders with
      | zero =>
        refine iff_of_true ?_ (.inr ⟨rfl, rfl⟩)
        have hheaders : object.readHeaders env.parsing numbers.numHeaders ln = (object, some ln) := by
          rw [hcount]
          rfl
        have hread := Object.readMetadata_of_chain codec hnumbers hheaders
        split at hread
        · exact Object.failsUntouched_of_ok hread
        · exact (Object.failsUntouched_of_failed hread).2 ⟨rfl, rfl⟩
      | succ n =>
        have hheaders : object.readHeaders env.parsing numbers.numHeaders ln =
            (object.replayed env.parsing [ln.line], none) := by
          rw [hcount, Object.readHeaders_noMem (hmem_eq.trans hmem) hcontrol]
        have hread := Object.readMetadata_of_headers codec hnumbers hheaders
        have hfalse : ¬ (((ln.skip (n + 1)).Certified codec false) ∧ (false = true ∨ n + 1 = 0)) := by
          rintro ⟨-, h | h⟩ <;> cases h
        rw [Object.failsUntouched_of_failed hread, or_iff_right hfalse]
        rfl

/-- A failure leaves the object as it was when the lines before the headers are refused, when what is behind
the headers is accepted and so there is no failure, or when the headers say nothing that is new. -/
theorem failsUntouched_iff {fetched : Option Bytes} {behind : Bytes} :
    object.FailsUntouched codec env mem fetched behind ↔
      ∀ metadata ∈ fetched, ∀ n, object.Opens mem (.start metadata behind) n →
        (((Cursor.start metadata behind).skip (6 + n)).Certified codec env.mem ∧ (env.mem = true ∨ n = 0)) ∨
        object.Spared env (((Cursor.start metadata behind).skip 6).takeLines n) := by
  cases fetched with
  | none => exact iff_of_true (fun _ => ⟨rfl, rfl, rfl, rfl, rfl⟩) fun _ h => nomatch h
  | some metadata =>
    rw [failsUntouched_some_iff]
    exact ⟨fun h _ hmem => Option.some.inj hmem ▸ h, fun h => h metadata rfl⟩

/-- Lines of metadata for `http://a/` with one header and no number of certificates behind it. -/
def brokenLines : List Bytes :=
  [str "http://a/", str "3", str "7", str "8", str "9", str "1", str "A: b", str "x"]

/-- The header of the broken lines stays with the object. -/
theorem not_failsUntouched : ∃ url : Nsurl.Hashed Platform.plain, url.url.string = str "http://a/" ∧
    ¬ (Object.new 0 url).FailsUntouched (.one [] []) .calm (fun _ => 0)
      (some (Terminated.text 0 brokenLines)) [] := by
  obtain ⟨url, hurl, hstring, -⟩ := exists_created
  have haccess : url.url.access = str "http://a/" := by
    rw [access_eq (by rw [hstring]; decide), hstring]
  refine ⟨url, hstring, fun h => ?_⟩
  have hline : (Cursor.ofLines [] brokenLines).line = str "http://a/" := by decide +kernel
  have hopens : (Object.new 0 url).Opens (fun _ => 0) (.ofLines [] brokenLines) 1 := {
    length := by decide +kernel
    url := ⟨url, by rw [hline, ← haccess]; exact hurl, Nsurl.compare_complete.2 rfl⟩
    sourceLen := by decide +kernel
    reqTime := by decide +kernel
    resTime := by decide +kernel
    finTime := by decide +kernel
    numHeaders_eq := by decide +kernel }
  have hlines : ((Cursor.ofLines [] brokenLines).skip 6).takeLines 1 = [str "A: b"] := by decide +kernel
  rcases failsUntouched_some_iff.1 h 1 hopens with ⟨hend | ⟨count, hcount, -⟩, -⟩ | hspared
  · revert hend
    decide +kernel
  · have hnone : scanSize ((Cursor.ofLines [] brokenLines).skip (6 + 1)).line = none := by decide +kernel
    exact absurd (hnone.symm.trans hcount) (some_ne_none _).symm
  · change (Object.new 0 url).Spared .calm (((Cursor.ofLines [] brokenLines).skip 6).takeLines 1) at hspared
    rw [hlines] at hspared
    rcases hspared with hnil | ⟨hheaders, -⟩
    · exact absurd hnil (cons_ne_nil _ _)
    · revert hheaders
      decide +kernel

end Nami.Llcache
