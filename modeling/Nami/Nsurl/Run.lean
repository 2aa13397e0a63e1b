import Nami.Lib.Run
import Nami.Nsurl.Create

/-!
# Sequences of URL operations

Every operation of the module makes one URL out of at most one other, so the history of a URL is a
sequence of calls. This file sets up that system and states what `nsurl__create_from_section`
leaves alone.
-/

namespace Nami.Nsurl

open Ascii

/-- One call of the module, without the URL it is applied to. -/
inductive Call where
  | create (mem : Mem) (urlS : Bytes)
  | join (mem : Mem) (rel : Bytes)
  | defragment
  | refragment (frag : Bytes)
  | replaceQuery (query : Bytes)
  | replaceScheme (scheme : Bytes)
  | parent

/-- `Call.Step P call url url'`: applied to `url`, the call returns `url'`. -/
inductive Call.Step (P : Platform) : Call → Option Nsurl → Option Nsurl → Prop where
  | create {mem urlS u url'} : Nsurl.create P mem urlS = .ok url' →
    Step P (.create mem urlS) u (some url')
  | join {mem rel base url'} : Nsurl.join P mem base rel = .ok url' →
    Step P (.join mem rel) (some base) (some url')
  | defragment {url} : Step P .defragment (some url) (some (Nsurl.defragment P url))
  | refragment {frag url} :
    Step P (.refragment frag) (some url) (some (Nsurl.refragment P url frag))
  | replaceQuery {query url} :
    Step P (.replaceQuery query) (some url) (some (Nsurl.replaceQuery P url query))
  | replaceScheme {scheme url} :
    Step P (.replaceScheme scheme) (some url) (some (Nsurl.replaceScheme P url scheme))
  | parent {url} : Step P .parent (some url) (some (Nsurl.parent P url))

/-- Nothing is there at first; each call replaces the URL at hand. -/
def calls (P : Platform) : System (Option Nsurl) Call where
  init url := url = none
  step := Call.Step P

/-! ## What a section leaves alone -/

variable {P : Platform} {mem mem' : Mem} {urlS : Bytes} {m : UrlMarkers} {c c' : Components}

theorem setCredentials_frame {norm : Bytes} (h : setCredentials m norm mem c = .ok c') :
    ∃ username password, c' = { c with username, password } := by
  simp only [setCredentials] at h
  split at h
  · exact ⟨none, none, (Except.ok.inj h).symm⟩
  · split at h
    · obtain ⟨⟨password, length⟩, -, h⟩ := bind_eq_ok.1 h
      obtain ⟨username, -, h⟩ := bind_eq_ok.1 h
      exact ⟨some username, password, (Except.ok.inj h).symm⟩
    · exact ⟨none, none, (Except.ok.inj h).symm⟩

theorem setHost_frame {norm : Bytes} (h : setHost P m norm mem c = .ok c') :
    ∃ host port, c' = { c with host, port } := by
  simp only [setHost] at h
  split at h
  · exact ⟨none, none, (Except.ok.inj h).symm⟩
  · split at h
    · exact ⟨none, none, (Except.ok.inj h).symm⟩
    · obtain ⟨⟨port, length⟩, -, h⟩ := bind_eq_ok.1 h
      obtain ⟨host, -, h⟩ := bind_eq_ok.1 h
      exact ⟨some host, port, (Except.ok.inj h).symm⟩

theorem setPath_frame (norm : Bytes) (c : Components) : ∃ path, setPath norm c = { c with path } := by
  simp only [setPath]
  split
  · exact ⟨some norm, rfl⟩
  · split
    · exact ⟨some (str "/"), rfl⟩
    · exact ⟨none, rfl⟩

theorem createFromSection_eq_ok {sec : UrlSections} : createFromSection P urlS sec m mem c = .ok (c', mem') ↔
      setSection P sec m (normalise sec (sectionText urlS sec m))
        (mem.write (normalise sec (sectionText urlS sec m))) c = .ok c' ∧
      mem' = mem.write (normalise sec (sectionText urlS sec m)) := by
  simp only [createFromSection, bind_eq_ok]
  constructor
  · rintro ⟨url, hu, h⟩
    cases h
    exact ⟨hu, rfl⟩
  · rintro ⟨hu, rfl⟩
    exact ⟨c', hu, rfl⟩

theorem createFromSection_frame {sec : UrlSections} (h : createFromSection P urlS sec m mem c = .ok (c', mem')) :
    match sec, normalise sec (sectionText urlS sec m) with
    | .scheme, norm => c' = { c with scheme := some (if norm = [] then str "http" else norm) }
    | .credentials, _ => ∃ username password, c' = { c with username, password }
    | .host, _ => ∃ host port, c' = { c with host, port }
    | .path, _ => ∃ path, c' = { c with path }
    | .query, norm => c' = { c with query := nonempty norm }
    | .fragment, norm => c' = { c with fragment := nonempty norm } := by
  obtain ⟨hu, -⟩ := createFromSection_eq_ok.1 h
  cases sec with
  | scheme => exact (Except.ok.inj hu).symm
  | credentials => exact setCredentials_frame hu
  | host => exact setHost_frame hu
  | path =>
    obtain ⟨path, hp⟩ := setPath_frame (normalise .path (sectionText urlS .path m)) c
    exact ⟨path, (Except.ok.inj hu).symm.trans hp⟩
  | query => exact (Except.ok.inj hu).symm
  | fragment => exact (Except.ok.inj hu).symm

theorem createFromSection_scheme {sec : UrlSections} (h : createFromSection P urlS sec m mem c = .ok (c', mem')) :
    c'.schemeType = c.schemeType ∧ (sec ≠ .scheme → c'.scheme = c.scheme) := by
  have hf := createFromSection_frame h
  cases sec with
  | scheme => exact ⟨congrArg (·.schemeType) hf, fun hs => absurd rfl hs⟩
  | credentials =>
    obtain ⟨username, password, hf⟩ := hf
    exact ⟨congrArg (·.schemeType) hf, fun _ => congrArg (·.scheme) hf⟩
  | host =>
    obtain ⟨host, port, hf⟩ := hf
    exact ⟨congrArg (·.schemeType) hf, fun _ => congrArg (·.scheme) hf⟩
  | path =>
    obtain ⟨path, hf⟩ := hf
    exact ⟨congrArg (·.schemeType) hf, fun _ => congrArg (·.scheme) hf⟩
  | query => exact ⟨congrArg (·.schemeType) hf, fun _ => congrArg (·.scheme) hf⟩
  | fragment => exact ⟨congrArg (·.schemeType) hf, fun _ => congrArg (·.scheme) hf⟩

theorem ofComponents_eq_ok {url : Nsurl} (h : ofComponents P c = .ok url) :
    url.components = c ∧ componentsToString c WITH_FRAGMENT = .ok (url.string, url.length) := by
  obtain ⟨⟨string, length⟩, hs, h⟩ := bind_eq_ok.1 h
  cases h
  exact ⟨rfl, hs⟩

theorem sectionText_host_nil (h : m.path ≤ m.atSign) : sectionText urlS .host m = [] := by
  have hsub : m.path - (if m.atSign = m.authority ∧ rd urlS m.atSign ≠ '@' then m.atSign
      else m.atSign + 1) = 0 := by
    split <;> omega
  simp only [sectionText, sectionBounds, hsub, List.take_zero]

theorem setHost_nil (P : Platform) (m : UrlMarkers) (mem : Mem) (c : Components) :
    setHost P m [] mem c = .ok { c with host := none, port := none } := by
  by_cases h : c.schemeType = .file <;> simp [setHost, h]

/-- The sections of a created URL: what the scheme, query and fragment texts become, and which calls
give the host and the path. -/
structure CreatedFrom (P : Platform) (urlS : Bytes) (m : UrlMarkers) (c : Components) : Prop where
  schemeType : c.schemeType = m.schemeType
  scheme : c.scheme = some (let norm := normalise .scheme (sectionText urlS .scheme m)
    if norm = [] then str "http" else norm)
  host : ∃ mem c₀ c₁, c₀.scheme = c.scheme ∧ c₀.schemeType = c.schemeType ∧
    setHost P m (normalise .host (sectionText urlS .host m)) mem c₀ = .ok c₁ ∧
    c₁.host = c.host ∧ c₁.port = c.port
  path : ∃ c₀, c₀.host = c.host ∧ c₀.schemeType = c.schemeType ∧
    (setPath (normalise .path (sectionText urlS .path m)) c₀).path = c.path
  query : c.query = nonempty (normalise .query (sectionText urlS .query m))
  fragment : c.fragment = nonempty (normalise .fragment (sectionText urlS .fragment m))

theorem createComponents_eq_ok (h : createComponents P mem urlS m = .ok c) : CreatedFrom P urlS m c := by
  obtain ⟨⟨c₁, mem₁⟩, h₁, h⟩ := bind_eq_ok.1 h
  obtain ⟨⟨c₂, mem₂⟩, h₂, h⟩ := bind_eq_ok.1 h
  obtain ⟨⟨c₃, mem₃⟩, h₃, h⟩ := bind_eq_ok.1 h
  obtain ⟨⟨c₄, mem₄⟩, h₄, h⟩ := bind_eq_ok.1 h
  obtain ⟨⟨c₅, mem₅⟩, h₅, h⟩ := bind_eq_ok.1 h
  obtain ⟨⟨c₆, mem₆⟩, h₆, h⟩ := bind_eq_ok.1 h
  cases h
  have hhost := (createFromSection_eq_ok.1 h₃).1
  have hpath := Except.ok.inj (createFromSection_eq_ok.1 h₄).1
  have f₁ := createFromSection_frame h₁
  obtain ⟨username, password, f₂⟩ := createFromSection_frame h₂
  obtain ⟨host, port, f₃⟩ := createFromSection_frame h₃
  obtain ⟨path, f₄⟩ := createFromSection_frame h₄
  have f₅ := createFromSection_frame h₅
  have f₆ := createFromSection_frame h₆
  have scheme := (congrArg (·.scheme) f₆).trans <| (congrArg (·.scheme) f₅).trans <|
    (congrArg (·.scheme) f₄).trans <| congrArg (·.scheme) f₃
  have type := (congrArg (·.schemeType) f₆).trans <| (congrArg (·.schemeType) f₅).trans <|
    (congrArg (·.schemeType) f₄).trans <| congrArg (·.schemeType) f₃
  have type₂ := (congrArg (·.schemeType) f₂).trans <| congrArg (·.schemeType) f₁
  have host := (congrArg (·.host) f₆).trans <| (congrArg (·.host) f₅).trans <| congrArg (·.host) f₄
  have port := (congrArg (·.port) f₆).trans <| (congrArg (·.port) f₅).trans <| congrArg (·.port) f₄
  exact {
    schemeType := type.trans type₂
    scheme := scheme.trans <| (congrArg (·.scheme) f₂).trans <| congrArg (·.scheme) f₁
    host := ⟨_, c₂, c₃, scheme.symm, type.symm, hhost, host.symm, port.symm⟩
    path := ⟨c₃, host.symm, (congrArg (·.schemeType) f₃).trans type.symm,
      (congrArg (·.path) hpath).trans <| (congrArg (·.path) f₅).symm.trans (congrArg (·.path) f₆).symm⟩
    query := (congrArg (·.query) f₆).trans (congrArg (·.query) f₅)
    fragment := congrArg (·.fragment) f₆ }

theorem createComponents_scheme (h : createComponents P mem urlS m = .ok c) : c.schemeType = m.schemeType ∧
      c.scheme = some (let norm := normalise .scheme (sectionText urlS .scheme m)
        if norm = [] then str "http" else norm) :=
  ⟨(createComponents_eq_ok h).schemeType, (createComponents_eq_ok h).scheme⟩

theorem joinAuthority_scheme {base : Components} {rel : Bytes} (h : joinAuthority P mem base rel m c = .ok (c', mem')) :
    c'.schemeType = c.schemeType ∧ c'.scheme = c.scheme := by
  simp only [joinAuthority] at h
  split at h
  · cases h
    exact ⟨rfl, rfl⟩
  · obtain ⟨⟨c₁, mem₁⟩, h₁, h⟩ := bind_eq_ok.1 h
    obtain ⟨t₁, s₁⟩ := createFromSection_scheme h₁
    obtain ⟨t₂, s₂⟩ := createFromSection_scheme h
    exact ⟨t₂.trans t₁, (s₂ nofun).trans (s₁ nofun)⟩

theorem joinPath_scheme {base : Components} {rel : Bytes} (h : joinPath P mem base rel m c = .ok (c', mem')) :
    c'.schemeType = c.schemeType ∧ c'.scheme = c.scheme := by
  simp only [joinPath] at h
  split at h
  · cases h
    exact ⟨rfl, rfl⟩
  · split at h
    · cases h
    · obtain ⟨t, s⟩ := createFromSection_scheme h
      exact ⟨t, s nofun⟩

theorem joinQuery_scheme {base : Components} {rel : Bytes} (h : joinQuery P mem base rel m c = .ok (c', mem')) :
    c'.schemeType = c.schemeType ∧ c'.scheme = c.scheme := by
  simp only [joinQuery] at h
  split at h
  · cases h
    exact ⟨rfl, rfl⟩
  · obtain ⟨t, s⟩ := createFromSection_scheme h
    exact ⟨t, s nofun⟩

theorem joinComponents_scheme {base : Components} {rel : Bytes} (h : joinComponents P mem base rel m = .ok c) :
    (m.schemeEnd ≤ m.start ∧ c.schemeType = base.schemeType ∧ c.scheme = base.scheme) ∨
      (m.start < m.schemeEnd ∧ c.schemeType = m.schemeType ∧
        c.scheme = some (let norm := normalise .scheme (sectionText rel .scheme m)
          if norm = [] then str "http" else norm)) := by
  obtain ⟨⟨c₁, mem₁⟩, h₁, h⟩ := bind_eq_ok.1 h
  obtain ⟨⟨c₂, mem₂⟩, h₂, h⟩ := bind_eq_ok.1 h
  obtain ⟨⟨c₃, mem₃⟩, h₃, h⟩ := bind_eq_ok.1 h
  obtain ⟨⟨c₄, mem₄⟩, h₄, h⟩ := bind_eq_ok.1 h
  obtain ⟨⟨c₅, mem₅⟩, h₅, h⟩ := bind_eq_ok.1 h
  cases h
  obtain ⟨t₅, s₅⟩ := createFromSection_scheme h₅
  rw [t₅, s₅ nofun, (joinQuery_scheme h₄).1, (joinQuery_scheme h₄).2, (joinPath_scheme h₃).1,
    (joinPath_scheme h₃).2, (joinAuthority_scheme h₂).1, (joinAuthority_scheme h₂).2]
  simp only [joinScheme, joinedParts, decide_eq_true_eq] at h₁
  by_cases hs : m.schemeEnd ≤ m.start
  · simp only [hs, if_true, Except.ok.injEq, Prod.mk.injEq] at h₁
    obtain ⟨rfl, -⟩ := h₁
    exact .inl ⟨hs, rfl, rfl⟩
  · simp only [hs, if_false] at h₁
    have hf := createFromSection_frame h₁
    exact .inr ⟨by omega, congrArg (·.schemeType) hf, congrArg (·.scheme) hf⟩

end Nami.Nsurl
