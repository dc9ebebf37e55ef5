import Scety.Config.Services
import Scety.Core.Routing
import Scety.Lib.LruCache

/-!
# `core/search_router.rs`: host lookup with a cache

`find` holds the lock for its whole body, so what threads do together is a sequence of `find`
calls.  In every state such a sequence reaches, a cached answer is the answer of the router
(`CacheCorrect`), and the router only knows indices of the configuration list.
-/

namespace Scety

open Cache

structure SearchRouter (lru : LruCache Str (Option ℕ)) where
  router : HostRouter
  configs : List ClientConfig
  cache : lru.Carrier
  cacheCapacity : ℕ+

/-- The body of the loop in `new`: register `host`, then `hosts`, under the index. -/
def addConfig (router : HostRouter) (e : ClientConfig × ℕ) : HostRouter :=
  let router := match e.1.host with
    | some host => router.addPattern host e.2
    | none => router
  match e.1.hosts with
  | some hosts => hosts.foldl (fun r host => r.addPattern host e.2) router
  | none => router

namespace SearchRouter

variable {lru : LruCache Str (Option ℕ)}

variable (lru) in
def new (configs : List ClientConfig) : SearchRouter lru where
  router := configs.zipIdx.foldl addConfig HostRouter.new
  configs := configs
  cache := lru.new 128
  cacheCapacity := 128

/-- `find_with_cache`, with the router after the call. -/
def find (r : SearchRouter lru) (host : Str) : Option ClientConfig × SearchRouter lru :=
  match lru.get r.cache host with
  | (some cachedIndex, cache) => (cachedIndex.bind fun i => r.configs[i]?, { r with cache })
  | (none, cache) =>
    let resolvedIndex := r.router.matches host
    (resolvedIndex.bind fun i => r.configs[i]?,
      { r with cache := lru.put cache host resolvedIndex })

/-- `with_cache_capacity` (its `expect` excludes 0). -/
def withCacheCapacity (r : SearchRouter lru) (capacity : ℕ+) : SearchRouter lru :=
  { r with cacheCapacity := capacity, cache := lru.new capacity }

/-- The router after a sequence of `find` calls. -/
def afterFinds (r : SearchRouter lru) (hosts : List Str) : SearchRouter lru :=
  hosts.foldl (fun r host => (r.find host).2) r

theorem new_eq_withCacheCapacity (configs : List ClientConfig) :
    (new lru configs).withCacheCapacity 128 = new lru configs := rfl

/-! ### The indices the router knows -/

/-- The calls of `add_pattern` that the loop makes for one configuration. -/
def callsOf (e : ClientConfig × ℕ) : List (Str × ℕ) :=
  (e.1.host.toList ++ e.1.hosts.getD []).map fun host => (host, e.2)

theorem addConfig_eq (r : HostRouter) (e : ClientConfig × ℕ) :
    addConfig r e = (callsOf e).foldl (fun r c => r.addPattern c.1 c.2) r := by
  unfold addConfig callsOf
  cases e.1.host <;> cases e.1.hosts <;> simp [List.foldl_map]

theorem foldl_addConfig (es : List (ClientConfig × ℕ)) (r : HostRouter) :
    es.foldl addConfig r = (es.flatMap callsOf).foldl (fun r c => r.addPattern c.1 c.2) r := by
  induction es generalizing r with
  | nil => rfl
  | cons e es ih =>
    rw [List.foldl_cons, List.flatMap_cons, List.foldl_append, ih, addConfig_eq]

/-- All calls of `add_pattern` that `new` makes. -/
def registrations (configs : List ClientConfig) : List (Str × ℕ) := configs.zipIdx.flatMap callsOf

variable (lru) in
theorem router_new (configs : List ClientConfig) :
    (new lru configs).router = HostRouter.ofCalls (registrations configs) := foldl_addConfig _ _

theorem lt_of_mem_registrations {configs : List ClientConfig} {e : Str × ℕ}
    (he : e ∈ registrations configs) : e.2 < configs.length := by
  obtain ⟨⟨c, n⟩, hc, hmem⟩ := List.mem_flatMap.mp he
  obtain ⟨p, -, rfl⟩ := List.mem_map.mp hmem
  exact (List.mem_zipIdx' hc).1

variable (lru) in
/-- All indices in the router are indices of the configuration list. -/
theorem lt_of_matches_new {configs : List ClientConfig} {host : Str} {i : ℕ}
    (h : (new lru configs).router.matches host = some i) : i < configs.length := by
  rw [router_new] at h
  obtain ⟨e, he, rfl, -⟩ := exists_of_matches h
  exact lt_of_mem_registrations he

/-! ### The cache -/

/-- What the cache holds is what the router would answer. -/
def CacheCorrect (r : SearchRouter lru) : Prop :=
  lru.Holds (fun host index => index = r.router.matches host) r.cache

theorem cacheCorrect_withCacheCapacity (r : SearchRouter lru) (capacity : ℕ+) :
    (r.withCacheCapacity capacity).CacheCorrect := LruCache.Holds.new capacity

/-- One `find` answers as the router does, keeps router and configurations, and keeps the cache
correct. -/
theorem find_spec {r : SearchRouter lru} (h : r.CacheCorrect) (host : Str) :
    (r.find host).1 = (r.router.matches host).bind (fun i => r.configs[i]?) ∧
      (r.find host).2.router = r.router ∧ (r.find host).2.configs = r.configs ∧
        (r.find host).2.CacheCorrect := by
  unfold find
  have hget := h.get host
  cases hc : lru.get r.cache host with
  | mk found cache =>
    rw [hc] at hget
    cases found with
    | some index =>
      have hindex : index = r.router.matches host := h.of_get (by rw [hc])
      exact ⟨by rw [hindex], rfl, rfl, hget⟩
    | none => exact ⟨rfl, rfl, rfl, hget.put rfl⟩

theorem afterFinds_spec {r : SearchRouter lru} (h : r.CacheCorrect) (hosts : List Str) :
    (r.afterFinds hosts).router = r.router ∧ (r.afterFinds hosts).configs = r.configs ∧
      (r.afterFinds hosts).CacheCorrect := by
  induction hosts generalizing r with
  | nil => exact ⟨rfl, rfl, h⟩
  | cons host hosts ih =>
    obtain ⟨-, hr, hconf, hnext⟩ := find_spec h host
    obtain ⟨hr', hconf', h'⟩ := ih hnext
    exact ⟨hr'.trans hr, hconf'.trans hconf, h'⟩

theorem find_afterFinds {r : SearchRouter lru} (h : r.CacheCorrect) (hosts : List Str)
    (host : Str) : ((r.afterFinds hosts).find host).1 =
      (r.router.matches host).bind fun i => r.configs[i]? := by
  obtain ⟨hr, hconf, hcache⟩ := afterFinds_spec h hosts
  rw [(find_spec hcache host).1, hr, hconf]

/-- **The cache is transparent**: after any sequence of `find` calls, `find` returns the
configuration at the index the router gives, which always exists, and nothing if it gives none. -/
theorem find_transparent (lru : LruCache Str (Option ℕ)) (configs : List ClientConfig)
    (capacity : ℕ+) (hosts : List Str) (host : Str) :
    let r := (new lru configs).withCacheCapacity capacity
    (∀ i, r.router.matches host = some i →
      ∃ hi : i < configs.length, ((r.afterFinds hosts).find host).1 = some configs[i]) ∧
    (r.router.matches host = none → ((r.afterFinds hosts).find host).1 = none) := by
  intro r
  have hfind := find_afterFinds
    (cacheCorrect_withCacheCapacity (new lru configs) capacity) hosts host
  refine ⟨?_, ?_⟩
  · intro i hi
    have hlt : i < configs.length := lt_of_matches_new lru hi
    refine ⟨hlt, hfind.trans ?_⟩
    rw [show (withCacheCapacity (new lru configs) capacity).router.matches host = some i from hi]
    exact List.getElem?_eq_getElem hlt
  · intro hnone
    refine hfind.trans ?_
    rw [show (withCacheCapacity (new lru configs) capacity).router.matches host = none from hnone]
    rfl

/-- A service with nothing but a host and a port. -/
def plainService (host : Str) : ClientConfig :=
  ⟨"proxy".toList, some host, none, some 80, none, none, ∅, none, ∅, none⟩

theorem find_transparent_evicted : ∃ _ : 0 < 1,
    ((((new (recencyList Str (Option ℕ)) [plainService "*.com".toList]).withCacheCapacity 1).afterFinds
      ["a.com".toList, "a.org".toList]).find "a.com".toList).1 = some (plainService "*.com".toList) :=
  (find_transparent (recencyList Str (Option ℕ)) [plainService "*.com".toList] 1
    ["a.com".toList, "a.org".toList] "a.com".toList).1 0 (by decide)

end SearchRouter

end Scety
