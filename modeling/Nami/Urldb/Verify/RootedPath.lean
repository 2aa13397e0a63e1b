import Nami.Nsurl.Verify.FilePath
import Nami.Urldb.Verify.Entries

/-!
# The path that a lookup asserts to start with a slash

`urldb_match_path` asserts that its path starts with a slash. A host makes `nsurl_create` see to that; a file URL has
none, and is looked up on `localhost` with the path that it has.
-/

namespace Nami.Urldb

variable {P : Platform} {db db' : Db} {url : Nsurl} {host s : Bytes} {mem : Nsurl.Mem}

/-! ## The host index of any database -/

theorem HostTrees.mapHosts {f : HostPart → HostPart} (hf : KeepsHost f) (ht : HostTrees P db) :
    HostTrees P { db with hosts := db.hosts.map f } :=
  ⟨ht.forest.map hf.ref, ht.sorted, fun i h hh => (KeyForest.isRef_map hf.ref).2 (ht.isHost i h hh), ht.filed⟩

theorem HostTrees.modifyHost {f : HostPart → HostPart} (hf : KeepsHost f) (ht : HostTrees P db) (h : HostRef) :
    HostTrees P (db.modifyHost h f) :=
  ht.mapHosts (hf.at h)

theorem HostTrees.addPath (ht : HostTrees P db) (scheme : Bytes) (port : UInt32) (h : HostRef) (pathQuery : Bytes)
    (fragment : Option Bytes) (url : Nsurl) : HostTrees P (db.addPath P scheme port h pathQuery fragment url).2 :=
  ht.modifyHost (keepsHost_nodes _) h

theorem HostTrees.addUrl (hP : P.Caseless) (ht : HostTrees P db) (url : Nsurl) : HostTrees P (addUrl P url db).1 := by
  have hbloom : HostTrees P (addToBloom url db) := ⟨ht.forest, ht.sorted, ht.isHost, ht.filed⟩
  unfold Urldb.addUrl
  split
  · exact (addHost_filed hP hbloom _).trees.addPath ..
  · exact hbloom

theorem HostTrees.insertCookie (hP : P.Caseless) (ht : HostTrees P db) (now : Int) (c : Cookie) (scheme : Bytes)
    (url : Nsurl) : HostTrees P (insertCookie P now c scheme url db) := by
  have hhost (host : Bytes) : HostTrees P (findOrAddHost P host db).2 := by
    unfold findOrAddHost
    split
    · exact ht
    · exact (addHost_filed hP ht host).trees
  unfold Urldb.insertCookie
  split
  · refine (hhost _).modifyHost ?_ _
    exact ⟨fun _ => rfl, fun _ => rfl⟩
  · refine ((hhost _).addPath ..).modifyHost ?_ _
    exact ⟨fun _ => rfl, fun _ => rfl⟩

theorem HostTrees.step {op : Call} (hP : P.Caseless) (ht : HostTrees P db) (hstep : Call.Step P op db db') :
    HostTrees P db' := by
  cases hstep with
  | @addUrl url _ _ _ hadd =>
    obtain rfl := congrArg Prod.fst hadd
    exact ht.addUrl hP url
  | setCookie hset =>
    rw [setCookie_eq_insertCookies hset]
    unfold insertCookies
    exact List.foldlRecOn _ _ ht fun db hdb c _ => hdb.insertCookie hP ..
  | @getCookie _ url _ _ _ _ hget =>
    obtain rfl := congrArg Prod.fst hget
    exact ht.addUrl hP url
  | deleteCookie => exact ht.mapHosts (keepsHost_deleteCookiePaths ..)
  | loadCookie => exact ht.insertCookie hP ..

theorem hostTrees_empty : HostTrees P Db.empty :=
  ⟨KeyForest.wellFormed_nil, fun _ => List.Pairwise.nil, fun _ _ hh => absurd hh List.not_mem_nil,
    fun _ _ hh => absurd hh List.not_mem_nil⟩

theorem hostTrees_of_reachable (hP : P.Caseless) (h : Reachable P db) : HostTrees P db := by
  obtain ⟨ops, hr⟩ := h
  apply hr.invariant
  · rintro db rfl
    exact hostTrees_empty
  · intro op db db' _ hstep ht
    exact ht.step hP hstep

theorem findHost_addHost (hP : P.Caseless) (ht : HostTrees P db) (hip : hostIsIpAddress P host = false)
    (hlabels : labels host = [host]) (hlen : host.length ≤ 255) :
    ∃ h, findHost P host (addHost P host db).2 = some h := by
  have hf := addHost_filed hP ht host
  have hkey : storedKey P host = [host] := by
    rw [storedKey_eq_hostKey hlen]
    exact (if_neg (by rw [hip]; exact Bool.false_ne_true)).trans hlabels
  have hname : lowerRef (addHost P host db).1 = lowerRef [host] := hkey ▸ hf.name
  obtain ⟨i, hi⟩ := (hf.indexed (addHost P host db).1).2
    (Or.inr ⟨rfl, fun h => absurd h (by rw [hip]; exact Bool.false_ne_true)⟩)
  have htree : i = getSearchTree P host := by
    rw [hf.trees.filed i _ hi]
    apply getSearchTree_congr hP
    cases hr : (addHost P host db).1 with
    | nil =>
      rw [hr] at hname
      cases hname
    | cons part parent =>
      rw [hr] at hname
      exact (List.cons.inj hname).1
  refine ⟨(addHost P host db).1, ?_⟩
  unfold findHost searchFind
  rw [AATree.findBy_eq_some_iff (hf.trees.sorted _) fun x _ => ?_, searchMatchHost_eq_iff]
  · exact ⟨htree ▸ hi, hname⟩
  · unfold searchMatchString
    rw [if_neg (by rw [hip]; exact Bool.false_ne_true), matchLabels_eq_searchMatchHost, hlabels]

/-! ## The lookup -/

/-- The path that `urldb_find_url` hands to `urldb_match_path`, when it gets there. -/
def matchedPath (P : Platform) (url : Nsurl) (db : Db) : Option Bytes :=
  if bloomRejects url db then none
  else do
    let scheme ← url.components.scheme
    if scheme = str "mailto" then none
    else
      let hostStr ← hostStrOf url
      let _ ← findHost P hostStr db
      pathQueryOf url

theorem bloomRejects_addUrl (P : Platform) (url : Nsurl) (db : Db) :
    bloomRejects url (addUrl P url db).1 = false := by
  have hhost (host : Bytes) (db : Db) : (addHost P host db).2.urlBloom = db.urlBloom := by
    unfold addHost
    split
    · unfold addIpHost
      split <;> rfl
    · rfl
  have hbloom : (addUrl P url db).1.urlBloom = (addToBloom url db).urlBloom := by
    unfold addUrl
    split
    · exact hhost _ _
    · rfl
  unfold bloomRejects
  rw [hbloom]
  exact beq_false_of_ne (by rw [BloomFilter.searchHash_insertHash_self]; exact Bool.false_ne_true.symm)

theorem hostIsIpAddress_localhost (P : Platform) : hostIsIpAddress P (str "localhost") = false := by
  unfold hostIsIpAddress
  dsimp only
  rw [if_pos (by decide)]

theorem head?_pathQueryOf {path : Bytes} (hpath : url.components.path = some path) (hne : path ≠ []) :
    ∃ plq, pathQueryOf url = some plq ∧ (plq.head? = some ('/' : UInt8) ↔ path.head? = some ('/' : UInt8)) := by
  refine ⟨_, pathQueryOf_eq hpath hne, ?_⟩
  obtain ⟨c, rest, rfl⟩ := List.exists_cons_of_ne_nil hne
  rw [List.cons_append]
  unfold cstr
  by_cases hc : c = 0
  · subst hc
    rw [List.takeWhile_cons_of_neg (by decide)]
    exact iff_of_false (fun h => by cases h) (fun h => absurd (Option.some.inj h) (by decide))
  · rw [List.takeWhile_cons_of_pos (by simpa using hc)]
    rfl

theorem matchedPath_file (hP : P.Caseless) (ht : HostTrees P db) (hs : url.components.scheme = some (str "file"))
    (hhost : url.components.host = none) {path : Bytes} (hpath : url.components.path = some path) (hne : path ≠ []) :
    matchedPath P url (addUrl P url db).1 = pathQueryOf url := by
  obtain ⟨plq, hplq, -⟩ := head?_pathQueryOf hpath hne
  have hstr : hostStrOf url = some (str "localhost") := by
    unfold hostStrOf
    rw [hhost, hs]
    rfl
  have hbloom : HostTrees P (addToBloom url db) := ⟨ht.forest, ht.sorted, ht.isHost, ht.filed⟩
  obtain ⟨h, hfind⟩ := findHost_addHost hP hbloom (hostIsIpAddress_localhost P) (by decide) (by decide)
  have hfound : findHost P (str "localhost") (addUrl P url db).1 = some h := by
    unfold addUrl
    rw [hplq, hs, hstr]
    exact hfind
  unfold matchedPath
  rw [bloomRejects_addUrl, if_neg Bool.false_ne_true, hs, hstr]
  simp only [Option.bind_eq_bind, Option.bind_some]
  rw [if_neg (by decide), hfound]
  rfl

/-- The assertion of `urldb_match_path` holds for every URL but a file URL whose path does not start with a slash. -/
theorem matchedPath_rooted_iff (hP : P.Caseless) (hdb : Reachable P db) (hz : 0 ∉ s)
    (h : Nsurl.create P mem s = .ok url) :
    (∀ plq, matchedPath P url (addUrl P url db).1 = some plq → plq.head? = some ('/' : UInt8)) ↔
      ¬ Nsurl.UnrootedFile s := by
  by_cases hs : url.components.scheme = some (str "file")
  · obtain ⟨hhost, path, hpath, hne, hrooted⟩ := Nsurl.create_file_rooted_iff hz h hs
    obtain ⟨plq, hplq, hhead⟩ := head?_pathQueryOf hpath hne
    rw [matchedPath_file hP (hostTrees_of_reachable hP hdb) hs hhost hpath hne, hplq, ← hrooted, ← hhead]
    constructor
    · exact fun hall => hall plq rfl
    · rintro hslash _ ⟨⟩
      exact hslash
  · refine iff_of_true ?_ ?_
    · intro plq hplq
      unfold matchedPath at hplq
      rw [bloomRejects_addUrl, if_neg Bool.false_ne_true] at hplq
      simp only [Option.bind_eq_bind, Option.bind_eq_some_iff] at hplq
      obtain ⟨scheme, hscheme, hplq⟩ := hplq
      split at hplq
      · cases hplq
      · next hmailto =>
        simp only [Option.bind_eq_some_iff] at hplq
        obtain ⟨hostStr, hstr, -, -, hplq⟩ := hplq
        have hhost : url.components.host.isSome := by
          unfold hostStrOf at hstr
          split at hstr
          · next hhost =>
            rw [hhost]
            rfl
          · rw [if_neg hs] at hstr
            cases hstr
        have hne : url.components.scheme ≠ some (str "mailto") := by
          rw [hscheme]
          exact fun heq => hmailto (Option.some.inj heq)
        obtain ⟨path, hpath, hrooted⟩ := Nsurl.create_rooted_of_host h hhost hne
        obtain ⟨plq', hplq', hhead⟩ := head?_pathQueryOf hpath (by rintro rfl; cases hrooted)
        obtain rfl : plq = plq' := Option.some.inj (hplq.symm.trans hplq')
        exact hhead.2 hrooted
    · rintro ⟨scheme, rest, c, hsplit, hlow, -⟩
      exact hs ((Nsurl.create_file_iff h).2 ⟨scheme, c :: rest, hsplit, hlow⟩)

theorem matchedPath_rooted_host : ∃ url, Nsurl.create .plain (fun _ => 0) (str "http://h.co") = .ok url ∧
    ∀ plq, matchedPath .plain url (addUrl .plain url Db.empty).1 = some plq → plq.head? = some ('/' : UInt8) := by
  obtain ⟨url, hurl, hp⟩ := Nsurl.exists_ok_of_any (x := Nsurl.create .plain (fun _ => 0) (str "http://h.co"))
    (p := fun url => url.components.scheme = some (str "http")) (by decide +kernel)
  refine ⟨url, hurl, (matchedPath_rooted_iff Platform.plain_caseless ⟨[], .start rfl⟩ (by decide) hurl).2 ?_⟩
  rintro ⟨scheme, rest, c, hsplit, hlow, -⟩
  have hfile := (Nsurl.create_file_iff hurl).2 ⟨scheme, c :: rest, hsplit, hlow⟩
  exact absurd ((of_decide_eq_true hp).symm.trans hfile) (by decide)

/-- The path of the URL is what follows the colon. -/
theorem not_matchedPath_rooted : ¬ ∀ s url, Nsurl.create .plain (fun _ => 0) s = .ok url →
    ∀ plq, matchedPath .plain url (addUrl .plain url Db.empty).1 = some plq → plq.head? = some ('/' : UInt8) := by
  intro hall
  obtain ⟨url, hurl, hp⟩ := Nsurl.exists_ok_of_any (x := Nsurl.create .plain (fun _ => 0) (str "file:foo"))
    (p := fun url => matchedPath .plain url (addUrl .plain url Db.empty).1 = some (str "foo")) (by decide +kernel)
  have hslash := hall _ url hurl _ (of_decide_eq_true hp)
  exact absurd hslash (by decide)

end Nami.Urldb
