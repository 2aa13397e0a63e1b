import Nami.Urldb.Cookie
import Nami.Urldb.Verify.PathTree

/-!
# What `urldb_get_cookie` selects

The four loops of `urldb_get_cookie` search four kinds of places. `mem_matchedCookies` says which
cookies they select; the two results on secure and on HttpOnly cookies follow from it.
-/

namespace Nami.Urldb

open List

variable {P : Platform} {now : Int} {url : Nsurl} {b : Bool} {db : Db} {h : HostRef} {p : PathData}
  {path : Bytes} {s : Stored}

/-- The four places where cookies for a URL are searched. -/
inductive Place where
  | exact | directory | ancestor | domain
  deriving DecidableEq

/-- `s` is a cookie of the path node `q` of the host `h`. -/
def StoredIn (h : HostRef) (q : PathData) (s : Stored) : Prop :=
  s.host = h ∧ s.path = q.ref ∧ s.cookie ∈ q.cookies

/-- The cookie `s` is stored at a place of this kind, seen from the path node `p` of the host `h`. -/
def StoredAt (db : Db) (h : HostRef) (p : PathData) (s : Stored) : Place → Prop
  | .exact => p.key.segment ≠ [] ∧ ∃ q ∈ db.nodes h, (q.parent = p.parent ∧
      q.key.segment = p.key.segment) ∧ StoredIn h q s
  | .directory => ∃ q ∈ db.nodes h, (q.parent <:+ p.parent ∧ q.key.segment = []) ∧ StoredIn h q s
  | .ancestor => ∃ q ∈ db.nodes h, q.ref <:+ p.parent ∧ StoredIn h q s
  | .domain => ∃ e ∈ db.hosts, e.ref <:+ h ∧ s.host = e.ref ∧ s.path = [] ∧ s.cookie ∈ e.cookies

/-- What the loop for a place demands of a cookie: it has not expired, and in the first loop scripts
do not see HttpOnly cookies, in the last two its path is a prefix of the URL's. -/
def Place.admits (now : Int) (path : Bytes) (b : Bool) (c : Cookie) (place : Place) : Prop :=
  c.expired now = false ∧
    match place with
    | exact => c.httpOnly = true → b = true
    | directory => True
    | ancestor | domain => pathPrefixes path c = true

/-- The cookie `s` is stored where the call searches, and admitted there. -/
def Candidate (P : Platform) (now : Int) (url : Nsurl) (b : Bool) (db : Db) (place : Place)
    (s : Stored) : Prop :=
  ∃ h p path, findUrl P url db = some (h, p) ∧ url.components.path = some path ∧
    StoredAt db h p s place ∧ place.admits now (cstr path) b s.cookie

/-! ## The loops -/

@[simp] theorem secureBlocked_eq_false (scheme : Bytes) (c : Cookie) : secureBlocked scheme c = false := by
  simp [secureBlocked, isequal]

theorem mem_cookiesAt {test : Cookie → Bool} {q : PathData} :
    s ∈ cookiesAt h test q ↔ StoredIn h q s ∧ test s.cookie = true := by
  simp only [cookiesAt, StoredIn, mem_map, mem_filter]
  constructor
  · rintro ⟨c, ⟨hc, ht⟩, rfl⟩
    exact ⟨⟨rfl, rfl, hc⟩, ht⟩
  · rintro ⟨⟨rfl, hq, hc⟩, ht⟩
    exact ⟨s.cookie, ⟨hc, ht⟩, by rw [← hq]⟩

theorem mem_exactCookies : s ∈ exactCookies h (db.nodes h) now b p ↔
    StoredAt db h p s .exact ∧ Place.admits now path b s.cookie .exact := by
  have ht : ∀ c : Cookie, (!c.expired now && !(c.httpOnly && !b)) = true ↔ Place.admits now path b c .exact := by
    intro c
    cases hc : c.httpOnly <;> cases b <;> simp [Place.admits, hc]
  by_cases hp : p.key.segment = []
  · simp [exactCookies, StoredAt, hp]
  · simp only [exactCookies, StoredAt, hp, if_false, mem_flatMap, mem_filter, mem_children,
      decide_eq_true_eq, mem_cookiesAt, secureBlocked_eq_false, Bool.not_false, Bool.and_true, ht]
    constructor
    · rintro ⟨q, ⟨⟨hq, hpar⟩, hseg⟩, hs, ht⟩
      exact ⟨⟨hp, q, hq, ⟨hpar, hseg⟩, hs⟩, ht⟩
    · rintro ⟨⟨-, q, hq, ⟨hpar, hseg⟩, hs⟩, ht⟩
      exact ⟨q, ⟨⟨hq, hpar⟩, hseg⟩, hs, ht⟩

theorem mem_directoryCookies {d : PathRef} : s ∈ directoryCookies h (db.nodes h) now d ↔
    (∃ q ∈ db.nodes h, (q.parent = d ∧ q.key.segment = []) ∧ StoredIn h q s) ∧
      Place.admits now path b s.cookie .directory := by
  simp only [directoryCookies, mem_flatMap, mem_filter, mem_children, decide_eq_true_eq,
    mem_cookiesAt, secureBlocked_eq_false, Bool.not_false, Bool.and_true, Bool.not_eq_true']
  constructor
  · rintro ⟨q, ⟨⟨hq, hpar⟩, hseg⟩, hs, ht⟩
    exact ⟨⟨q, hq, ⟨hpar, hseg⟩, hs⟩, ht, trivial⟩
  · rintro ⟨⟨q, hq, ⟨hpar, hseg⟩, hs⟩, ht, -⟩
    exact ⟨q, ⟨⟨hq, hpar⟩, hseg⟩, hs, ht⟩

theorem mem_ancestorCookies {d : PathRef} : s ∈ ancestorCookies h (db.nodes h) now path d ↔
    (∃ q ∈ db.nodes h, q.ref = d ∧ StoredIn h q s) ∧ Place.admits now path b s.cookie .ancestor := by
  simp only [ancestorCookies, mem_flatMap, mem_filter, decide_eq_true_eq, mem_cookiesAt,
    secureBlocked_eq_false, Bool.not_false, Bool.and_true, Bool.and_eq_true, Bool.not_eq_true']
  constructor
  · rintro ⟨q, ⟨hq, href⟩, hs, ht⟩
    exact ⟨⟨q, hq, href, hs⟩, ht⟩
  · rintro ⟨⟨q, hq, href, hs⟩, ht⟩
    exact ⟨q, ⟨hq, href⟩, hs, ht⟩

theorem mem_climbCookies {d : PathRef} : s ∈ climbCookies h (db.nodes h) now path d ↔
    (∃ d', d' <:+ d ∧ s ∈ directoryCookies h (db.nodes h) now d') ∨
      ∃ d', d' <:+ d ∧ d' ≠ [] ∧ s ∈ ancestorCookies h (db.nodes h) now path d' := by
  induction d with
  | nil =>
    simp only [climbCookies, suffix_nil, exists_eq_left]
    refine ⟨Or.inl, ?_⟩
    rintro (hs | ⟨hne, -⟩)
    · exact hs
    · exact absurd rfl hne
  | cons k d ih =>
    simp only [climbCookies, mem_append, ih, suffix_cons_iff]
    constructor
    · rintro ((hs | hs) | ⟨d', hd, hs⟩ | ⟨d', hd, hne, hs⟩)
      · exact Or.inl ⟨_, Or.inl rfl, hs⟩
      · exact Or.inr ⟨_, Or.inl rfl, cons_ne_nil k d, hs⟩
      · exact Or.inl ⟨d', Or.inr hd, hs⟩
      · exact Or.inr ⟨d', Or.inr hd, hne, hs⟩
    · rintro (⟨d', rfl | hd, hs⟩ | ⟨d', rfl | hd, hne, hs⟩)
      · exact Or.inl (Or.inl hs)
      · exact Or.inr (Or.inl ⟨d', hd, hs⟩)
      · exact Or.inl (Or.inr hs)
      · exact Or.inr (Or.inr ⟨d', hd, hne, hs⟩)

theorem mem_climbCookies_parent : s ∈ climbCookies h (db.nodes h) now path p.parent ↔
    (StoredAt db h p s .directory ∧ Place.admits now path b s.cookie .directory) ∨
      (StoredAt db h p s .ancestor ∧ Place.admits now path b s.cookie .ancestor) := by
  rw [mem_climbCookies]
  refine or_congr ?_ ?_
  · simp only [@mem_directoryCookies now b _ _ path, StoredAt]
    constructor
    · rintro ⟨_, hd, ⟨q, hq, ⟨rfl, hseg⟩, hs⟩, ht⟩
      exact ⟨⟨q, hq, ⟨hd, hseg⟩, hs⟩, ht⟩
    · rintro ⟨⟨q, hq, ⟨hd, hseg⟩, hs⟩, ht⟩
      exact ⟨_, hd, ⟨q, hq, ⟨rfl, hseg⟩, hs⟩, ht⟩
  · simp only [mem_ancestorCookies (b := b), StoredAt]
    constructor
    · rintro ⟨_, hd, -, ⟨q, hq, rfl, hs⟩, ht⟩
      exact ⟨⟨q, hq, hd, hs⟩, ht⟩
    · rintro ⟨⟨q, hq, hd, hs⟩, ht⟩
      exact ⟨_, hd, cons_ne_nil _ _, ⟨q, hq, rfl, hs⟩, ht⟩

theorem mem_domainCookies {scheme : Bytes} : s ∈ domainCookies db.hosts now path scheme h ↔
    StoredAt db h p s .domain ∧ Place.admits now path b s.cookie .domain := by
  have hmem : s ∈ domainCookies db.hosts now path scheme h ↔ ∃ e ∈ db.hosts, e.ref <:+ h ∧
      s.host = e.ref ∧ s.path = [] ∧ s.cookie ∈ e.cookies ∧
        (s.cookie.expired now = false ∧ pathPrefixes path s.cookie = true) := by
    induction h with
    | nil =>
      simp only [domainCookies, not_mem_nil, false_iff]
      rintro ⟨e, -, he, -⟩
      exact cons_ne_nil _ _ (suffix_nil.1 he)
    | cons part h ih =>
      simp only [domainCookies, mem_append, ih, mem_flatMap, mem_filter,
        decide_eq_true_eq, mem_map, secureBlocked_eq_false, Bool.not_false, Bool.and_true,
        Bool.and_eq_true, Bool.not_eq_true', suffix_cons_iff]
      constructor
      · rintro (⟨e, ⟨he, href⟩, c, ⟨hc, ht⟩, rfl⟩ | ⟨e, he, hs, hc⟩)
        · exact ⟨e, he, Or.inl href, href.symm, rfl, hc, ht⟩
        · exact ⟨e, he, Or.inr hs, hc⟩
      · rintro ⟨e, he, href | hs, hh, hp, hc, ht⟩
        · refine Or.inl ⟨e, ⟨he, href⟩, s.cookie, ⟨hc, ht⟩, ?_⟩
          rw [← href, ← hh, ← hp]
        · exact Or.inr ⟨e, he, hs, hh, hp, hc, ht⟩
  rw [hmem]
  constructor
  · rintro ⟨e, he, hs, hh, hp, hc, ht⟩
    exact ⟨⟨e, he, hs, hh, hp, hc⟩, ht⟩
  · rintro ⟨⟨e, he, hs, hh, hp, hc⟩, ht⟩
    exact ⟨e, he, hs, hh, hp, hc, ht⟩

theorem mem_matchedCookies : s ∈ matchedCookies P now url b db ↔ ∃ place, Candidate P now url b db place s := by
  simp only [matchedCookies, Candidate]
  cases hf : findUrl P url db with
  | none => simp
  | some node =>
    obtain ⟨h, p⟩ := node
    cases hp : url.components.path with
    | none => simp
    | some path =>
      simp only [mem_append, @mem_exactCookies now b _ _ _ (cstr path),
        mem_climbCookies_parent (b := b), mem_domainCookies (p := p) (b := b)]
      constructor
      · rintro ((hs | hs | hs) | hs)
        · exact ⟨.exact, h, p, path, rfl, rfl, hs⟩
        · exact ⟨.directory, h, p, path, rfl, rfl, hs⟩
        · exact ⟨.ancestor, h, p, path, rfl, rfl, hs⟩
        · exact ⟨.domain, h, p, path, rfl, rfl, hs⟩
      · rintro ⟨place, h', p', path', hh, hp, hs⟩
        cases hh
        cases hp
        cases place with
        | exact => exact Or.inl (Or.inl hs)
        | directory => exact Or.inl (Or.inr (Or.inl hs))
        | ancestor => exact Or.inl (Or.inr (Or.inr hs))
        | domain => exact Or.inr hs

/-- The cookies that `urldb_get_cookie` selects. -/
def selectedCookies (P : Platform) (now : Int) (url : Nsurl) (b : Bool) (db : Db) : List Stored :=
  matchedCookies P now url b (addUrl P url db).1

theorem exactCookies_false (h : HostRef) (nodes : List PathData) (now : Int) (p : PathData) :
    exactCookies h nodes now false p = (exactCookies h nodes now true p).filter (!·.cookie.httpOnly) := by
  by_cases hp : p.key.segment = []
  · simp only [exactCookies, hp, if_true, filter_nil]
  · simp only [exactCookies, hp, if_false, filter_flatMap]
    congr 1
    funext q
    simp only [cookiesAt, filter_map, filter_filter]
    congr 2
    funext c
    simp [Bool.and_comm]

/-- Scripts see no HttpOnly cookie, and miss nothing else, exactly when no HttpOnly cookie is stored
in the places of the three loops that do not look at the flag. -/
theorem httpOnly_withheld_iff (P : Platform) (now : Int) (url : Nsurl) (db : Db) :
    ((∀ s ∈ selectedCookies P now url false db, s.cookie.httpOnly = false) ∧
      selectedCookies P now url false db =
        (selectedCookies P now url true db).filter (!·.cookie.httpOnly)) ↔
      ∀ place s, place ≠ .exact → Candidate P now url false (addUrl P url db).1 place s →
        s.cookie.httpOnly = false := by
  constructor
  · rintro ⟨h, -⟩ place s - hs
    exact h s (mem_matchedCookies.2 ⟨place, hs⟩)
  · intro h
    have heq : selectedCookies P now url false db =
        (selectedCookies P now url true db).filter (!·.cookie.httpOnly) := by
      simp only [selectedCookies, matchedCookies]
      cases hf : findUrl P url (addUrl P url db).1 with
      | none => rfl
      | some node =>
        obtain ⟨host, p⟩ := node
        cases hp : url.components.path with
        | none => rfl
        | some path =>
          have hclimb : ∀ s ∈ climbCookies host ((addUrl P url db).1.nodes host) now (cstr path)
              p.parent, s.cookie.httpOnly = false := by
            intro s hs
            rcases (mem_climbCookies_parent (b := false)).1 hs with hs | hs
            · exact h .directory s nofun ⟨host, p, path, hf, hp, hs⟩
            · exact h .ancestor s nofun ⟨host, p, path, hf, hp, hs⟩
          have hdomain : ∀ s ∈ domainCookies (addUrl P url db).1.hosts now (cstr path) p.key.scheme
              host, s.cookie.httpOnly = false := by
            intro s hs
            exact h .domain s nofun
              ⟨host, p, path, hf, hp, (mem_domainCookies (p := p) (b := false)).1 hs⟩
          have hkeep : ∀ l : List Stored, (∀ s ∈ l, s.cookie.httpOnly = false) →
              l.filter (!·.cookie.httpOnly) = l :=
            fun l hl => filter_eq_self.2 fun s hs => by rw [hl s hs]; rfl
          simp only [filter_append, exactCookies_false, hkeep _ hclimb, hkeep _ hdomain]
    refine ⟨fun s hs => ?_, heq⟩
    rw [heq, mem_filter, Bool.not_eq_true'] at hs
    exact hs.2

/-- A script reads an HttpOnly cookie of a directory above. -/
theorem getCookie_shows_httpOnly : ¬ ∀ db, Reachable .plain db →
    ∀ mem s url, Nsurl.create .plain mem s = .ok url → ∀ now,
      ∀ s ∈ selectedCookies .plain now url false db, s.cookie.httpOnly = false := by
  intro h
  obtain ⟨url, hu, ht⟩ := Nsurl.exists_ok_of_any
    (x := Nsurl.create .plain (fun _ => 0) (str "http://h.co/"))
    (p := fun url =>
      (setCookie .plain 0 (str "a=b; HttpOnly") url none Db.empty).any fun r =>
          (selectedCookies .plain 0 url false r.1).any (·.cookie.httpOnly)) (by decide +kernel)
  obtain ⟨⟨db, ok⟩, hset, ht'⟩ := exists_some_of_any ht
  obtain ⟨s, hs, hflag⟩ := any_eq_true.1 ht'
  have := h db (reachable_setCookie hset) _ _ url hu 0 s hs
  rw [hflag] at this
  cases this

end Nami.Urldb
