import Scety.Basic

/-!
# `core/host_router.rs`: registering host patterns and looking hosts up

`addPattern` puts a pattern into one of ten stores.  Which store, and under which key, depends on
the pattern alone, so the model first classifies (`classify`, the tests of the source in their
order) and then inserts (`insertClass`).  `matches` asks the stores in the order of the source.
-/

namespace Scety

/-! ### `LabelTrie` -/

/-- `TrieNode`: children by literal label, the child of `*`, and the value of a list ending here. -/
inductive TrieNode where
  | mk (children : Str → Option TrieNode) (wildcardChild : Option TrieNode) (value : Option ℕ)

namespace TrieNode

def children : TrieNode → Str → Option TrieNode
  | mk c _ _ => c

def wildcardChild : TrieNode → Option TrieNode
  | mk _ w _ => w

def value : TrieNode → Option ℕ
  | mk _ _ v => v

def new : TrieNode := mk (fun _ => none) none none

/-- The loop of `LabelTrie::insert` from `node` on. -/
def insert (node : TrieNode) : List Str → ℕ → TrieNode
  | [], index =>
    mk node.children node.wildcardChild (if node.value.isNone then some index else node.value)
  | label :: rest, index =>
    if label = star then
      mk node.children (some ((node.wildcardChild.getD new).insert rest index)) node.value
    else
      mk (Function.update node.children label
        (some (((node.children label).getD new).insert rest index))) node.wildcardChild node.value

/-- `lookup_from` on the labels still to read (`host_labels[pos..]`): the literal child first. -/
def lookupFrom (node : TrieNode) : List Str → Option ℕ
  | [] => node.value
  | label :: rest =>
    match (node.children label).bind fun child => child.lookupFrom rest with
    | some found => some found
    | none => node.wildcardChild.bind fun wildcard => wildcard.lookupFrom rest

end TrieNode

structure LabelTrie where
  root : TrieNode

namespace LabelTrie

def new : LabelTrie := ⟨TrieNode.new⟩

def insert (t : LabelTrie) (patternLabels : List Str) (index : ℕ) : LabelTrie :=
  ⟨t.root.insert patternLabels index⟩

def lookup (t : LabelTrie) (hostLabels : List Str) : Option ℕ := t.root.lookupFrom hostLabels

end LabelTrie

/-! ### The matchers of the scanned lists -/

def matchesSingleInternalWildcard (prefixLabels suffixLabels hostLabels : List Str) : Bool :=
  if prefixLabels.length + 1 + suffixLabels.length ≠ hostLabels.length then false
  else
    let prefixMatches := (prefixLabels.zip hostLabels).all fun p => p.1 = p.2
    let suffixMatches :=
      (suffixLabels.zip (hostLabels.drop (prefixLabels.length + 1))).all fun p => p.1 = p.2
    prefixMatches && suffixMatches

def matchesInternalDoubleStar (prefixLabels suffixLabels hostLabels : List Str) : Bool :=
  if prefixLabels.length + suffixLabels.length > hostLabels.length then false
  else
    let start := prefixLabels.length
    let stop := hostLabels.length - suffixLabels.length
    if start > stop then false
    else
      let prefixMatches := (prefixLabels.zip hostLabels).all fun p => p.1 = p.2
      let suffixMatches := (suffixLabels.zip (hostLabels.drop stop)).all fun p => p.1 = p.2
      prefixMatches && suffixMatches

/-- `Vec::resize`. -/
def vecResize (v : List Bool) (n : ℕ) (b : Bool) : List Bool :=
  v.take n ++ List.replicate (n - v.length) b

/-- The value the inner loop of `dp_host_matches` writes at `(patternPos, hostPos)`. -/
def dpCell (patternLabel : Str) (hostLabels : List Str) (columns : ℕ) (table : List Bool)
    (patternPos hostPos : ℕ) : Bool :=
  if patternLabel = doubleStar then
    let skipThisLabel := table.getD ((patternPos - 1) * columns + hostPos) false
    let eatOneMoreLabel :=
      decide (0 < hostPos) && table.getD (patternPos * columns + (hostPos - 1)) false
    skipThisLabel || eatOneMoreLabel
  else if 0 < hostPos then
    let currentHostLabel := hostLabels.getD (hostPos - 1) []
    let previousLabelsMatches := table.getD ((patternPos - 1) * columns + (hostPos - 1)) false
    let thisLabelMatches := decide (patternLabel = star ∨ patternLabel = currentHostLabel)
    previousLabelsMatches && thisLabelMatches
  else false

/-- The inner loop: row `patternPos` of the flattened table. -/
def dpRow (patternLabels hostLabels : List Str) (columns : ℕ) (table : List Bool)
    (patternPos : ℕ) : List Bool :=
  (List.range (hostLabels.length + 1)).foldl
    (fun t hostPos => t.set (patternPos * columns + hostPos)
      (dpCell (patternLabels.getD (patternPos - 1) []) hostLabels columns t patternPos hostPos))
    table

/-- `dp_host_matches`: the verdict and what is left in the scratch vector. -/
def dpHostMatches (patternLabels hostLabels : List Str) (scratch : List Bool) :
    Bool × List Bool :=
  let columns := hostLabels.length + 1
  let needed := (patternLabels.length + 1) * columns
  let cleared := scratch.take 0
  let table := (vecResize cleared needed false).set 0 true
  let table := (List.range' 1 patternLabels.length).foldl
    (dpRow patternLabels hostLabels columns) table
  (table.getD (patternLabels.length * columns + hostLabels.length) false, table)

/-! ### `HostRouter` -/

structure HostRouter where
  exactMatches : HashMap Str ℕ
  leadingWildcards : HashMap Str ℕ
  trailingWildcards : HashMap Str ℕ
  doubleStarLeading : HashMap ℕ (HashMap Str ℕ)
  doubleStarTrailing : HashMap ℕ (HashMap Str ℕ)
  simpleInternalWildcards : List (List Str × List Str × ℕ)
  internalDoubleStarWildcards : List (List Str × List Str × ℕ)
  multiStarTrie : LabelTrie
  complexPatterns : List (List Str × ℕ)
  catchAll : Option ℕ

/-- Where `add_pattern` stores a pattern, with the key it is stored under. -/
inductive PatternClass where
  | catchAll
  | exactMatches (key : Str)
  | leadingWildcards (domainPart : Str)
  | trailingWildcards (domainPart : Str)
  | doubleStarLeading (count : ℕ) (knownParts : Str)
  | doubleStarTrailing (count : ℕ) (knownParts : Str)
  | simpleInternalWildcards (prefixLabels suffixLabels : List Str)
  | internalDoubleStarWildcards (prefixLabels suffixLabels : List Str)
  | multiStarTrie (patternLabels : List Str)
  | complexPatterns (patternLabels : List Str)
  deriving DecidableEq

/-- `labels.iter().position(|l| l == w)`, kept only when `0 < pos < labels.len() - 1`, as the labels
before and after that position. -/
def splitInner (ls : List Str) (w : Str) : Option (List Str × List Str) :=
  match ls.idxOf? w with
  | some pos =>
    if 0 < pos ∧ pos < ls.length - 1 then some (ls.take pos, ls.drop (pos + 1)) else none
  | none => none

/-- The tests of `add_pattern`, in its order. -/
def classify (pattern : Str) : PatternClass :=
  if pattern = star ∨ pattern = doubleStar then .catchAll
  else
    let starCount := pattern.count '*'
    if starCount = 0 then .exactMatches pattern
    else if starCount = 1 ∧ ['*', '.'] <+: pattern then .leadingWildcards (pattern.drop 2)
    else if starCount = 1 ∧ ['.', '*'] <:+ pattern then
      .trailingWildcards (pattern.take (pattern.length - 2))
    else
      let ls := labels pattern
      let hasDoubleStar := doubleStar ∈ ls
      let hasSingleStar := star ∈ ls
      if ls.head? = some doubleStar ∧ ∀ l ∈ ls.tail, '*' ∉ l then
        .doubleStarLeading (ls.length - 1) (joinDots ls.tail)
      else if ls.getLast? = some doubleStar ∧ ∀ l ∈ ls.dropLast, '*' ∉ l then
        .doubleStarTrailing (ls.length - 1) (joinDots ls.dropLast)
      else if hasDoubleStar ∧ hasSingleStar then .complexPatterns ls
      else
        let singleWildcardCount := ls.count star
        let internal := if singleWildcardCount = 1 ∧ ¬ hasDoubleStar then splitInner ls star else none
        match internal with
        | some (prefixLabels, suffixLabels) => .simpleInternalWildcards prefixLabels suffixLabels
        | none =>
          if singleWildcardCount > 1 ∧ ¬ hasDoubleStar then .multiStarTrie ls
          else
            let internal :=
              if hasDoubleStar ∧ ¬ hasSingleStar then splitInner ls doubleStar else none
            match internal with
            | some (prefixLabels, suffixLabels) =>
              .internalDoubleStarWildcards prefixLabels suffixLabels
            | none => .complexPatterns ls

/-- `map.entry(count).or_default().insert(known, index)`. -/
def insertCounted (m : HashMap ℕ (HashMap Str ℕ)) (count : ℕ) (known : Str) (index : ℕ) :
    HashMap ℕ (HashMap Str ℕ) :=
  m.insert count (((m.lookup count).getD ∅).insert known index)

namespace HostRouter

def new : HostRouter where
  exactMatches := ∅
  leadingWildcards := ∅
  trailingWildcards := ∅
  doubleStarLeading := ∅
  doubleStarTrailing := ∅
  simpleInternalWildcards := []
  internalDoubleStarWildcards := []
  multiStarTrie := LabelTrie.new
  complexPatterns := []
  catchAll := none

/-- What `add_pattern` does once it has chosen the store. -/
def insertClass (r : HostRouter) (c : PatternClass) (index : ℕ) : HostRouter :=
  match c with
  | .catchAll => if r.catchAll.isSome then r else { r with catchAll := some index }
  | .exactMatches key => { r with exactMatches := r.exactMatches.insert key index }
  | .leadingWildcards d => { r with leadingWildcards := r.leadingWildcards.insert d index }
  | .trailingWildcards d => { r with trailingWildcards := r.trailingWildcards.insert d index }
  | .doubleStarLeading n k =>
    { r with doubleStarLeading := insertCounted r.doubleStarLeading n k index }
  | .doubleStarTrailing n k =>
    { r with doubleStarTrailing := insertCounted r.doubleStarTrailing n k index }
  | .simpleInternalWildcards p s =>
    { r with simpleInternalWildcards := r.simpleInternalWildcards ++ [(p, s, index)] }
  | .internalDoubleStarWildcards p s =>
    { r with internalDoubleStarWildcards := r.internalDoubleStarWildcards ++ [(p, s, index)] }
  | .multiStarTrie ls => { r with multiStarTrie := r.multiStarTrie.insert ls index }
  | .complexPatterns ls => { r with complexPatterns := r.complexPatterns ++ [(ls, index)] }

def addPattern (r : HostRouter) (pattern : Str) (index : ℕ) : HostRouter :=
  r.insertClass (classify pattern) index

end HostRouter

/-! ### Lookup -/

/-- `map.iter().rev()` on a `BTreeMap<usize, _>`: the entries by descending key. -/
def descending {V : Type} (m : HashMap ℕ V) : List (Sigma fun _ : ℕ => V) :=
  m.entries.insertionSort fun a b => b.1 ≤ a.1

/-- The loop over `double_star_leading`: the last `count` host labels, longest first. -/
def lookupDoubleStarLeading (m : HashMap ℕ (HashMap Str ℕ)) (hostLabels : List Str) : Option ℕ :=
  (descending m).findSome? fun e =>
    if e.1 ≤ hostLabels.length then
      e.2.lookup (joinDots (hostLabels.drop (hostLabels.length - e.1)))
    else none

/-- The loop over `double_star_trailing`: the first `count` host labels, longest first. -/
def lookupDoubleStarTrailing (m : HashMap ℕ (HashMap Str ℕ)) (hostLabels : List Str) : Option ℕ :=
  (descending m).findSome? fun e =>
    if e.1 ≤ hostLabels.length then e.2.lookup (joinDots (hostLabels.take e.1)) else none

def lookupSimpleInternal (l : List (List Str × List Str × ℕ)) (hostLabels : List Str) : Option ℕ :=
  l.findSome? fun e =>
    if matchesSingleInternalWildcard e.1 e.2.1 hostLabels then some e.2.2 else none

def lookupInternalDoubleStar (l : List (List Str × List Str × ℕ)) (hostLabels : List Str) :
    Option ℕ :=
  l.findSome? fun e =>
    if matchesInternalDoubleStar e.1 e.2.1 hostLabels then some e.2.2 else none

/-- The loop over `complex_patterns`, handing the scratch vector from one pattern to the next. -/
def lookupComplex (hostLabels : List Str) : List (List Str × ℕ) → List Bool → Option ℕ
  | [], _ => none
  | (patternLabels, index) :: rest, scratch =>
    let (found, scratch) := dpHostMatches patternLabels hostLabels scratch
    if found then some index else lookupComplex hostLabels rest scratch

def lookupLeading (m : HashMap Str ℕ) (host : Str) : Option ℕ :=
  (Split.splitOnce '.' host).bind fun p => m.lookup p.2

def lookupTrailing (m : HashMap Str ℕ) (host : Str) : Option ℕ :=
  (Split.rsplitOnce '.' host).bind fun p => m.lookup p.1

namespace HostRouter

/-- The stores in the order in which `matches` asks them.  The `is_empty` tests of the source skip
stores in which nothing can be found.  The thread's scratch vector is cleared before each use, so
it is taken as empty here (`lookupComplex_scratch`). -/
def lookups (r : HostRouter) (host : Str) : List (Option ℕ) :=
  [r.exactMatches.lookup host,
    lookupDoubleStarLeading r.doubleStarLeading (labels host),
    lookupDoubleStarTrailing r.doubleStarTrailing (labels host),
    lookupSimpleInternal r.simpleInternalWildcards (labels host),
    lookupInternalDoubleStar r.internalDoubleStarWildcards (labels host),
    r.multiStarTrie.lookup (labels host),
    lookupComplex (labels host) r.complexPatterns [],
    lookupLeading r.leadingWildcards host,
    lookupTrailing r.trailingWildcards host,
    r.catchAll]

end HostRouter

/-- The first answer of `lookups`. -/
def HostRouter.matches (r : HostRouter) (host : Str) : Option ℕ := (r.lookups host).findSome? id

end Scety
