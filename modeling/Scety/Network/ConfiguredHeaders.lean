import Scety.Network.Forwarding
import Scety.Network.Message
import Scety.Network.Relay

/-!
# When configured headers are emitted once

The maps of headers are merged by names as they are written, while header names are compared
ignoring ASCII case.  So two names that differ in case only are emitted twice, and where they come
from decides nothing (`emitsOnce_iff`).
-/

namespace Scety

open Effects Lines Streams

/-! ### Names -/

/-- The names are the same header name. -/
def SameName (a b : Str) : Prop := eqIgnoreAsciiCase (bytes a) (bytes b) = true

/-- The field has the name, in any letter case. -/
def hasFieldName (name text : Bytes) : Bool :=
  match fieldName text with
  | some n => eqIgnoreAsciiCase n name
  | none => false

theorem hasFieldName_iff {name text : Bytes} :
    hasFieldName name text = true ↔ FieldNamed text name := by
  unfold hasFieldName FieldNamed
  cases fieldName text <;> simp

theorem eqIgnoreAsciiCase_iff {a b : Bytes} :
    eqIgnoreAsciiCase a b = true ↔ a.map asciiLower = b.map asciiLower := decide_eq_true_iff

theorem SameName.refl (a : Str) : SameName a a := eqIgnoreAsciiCase_iff.mpr rfl

theorem SameName.symm {a b : Str} (h : SameName a b) : SameName b a :=
  eqIgnoreAsciiCase_iff.mpr (eqIgnoreAsciiCase_iff.mp h).symm

theorem SameName.trans {a b c : Str} (h : SameName a b) (h' : SameName b c) : SameName a c :=
  eqIgnoreAsciiCase_iff.mpr ((eqIgnoreAsciiCase_iff.mp h).trans (eqIgnoreAsciiCase_iff.mp h'))

/-- Which of two same names is asked for does not matter. -/
theorem hasFieldName_congr {a b : Str} (h : SameName a b) (text : Bytes) :
    hasFieldName (bytes a) text = hasFieldName (bytes b) text := by
  unfold hasFieldName
  cases fieldName text with
  | none => rfl
  | some n =>
    rw [Bool.eq_iff_iff, eqIgnoreAsciiCase_iff, eqIgnoreAsciiCase_iff, eqIgnoreAsciiCase_iff.mp h]

/-- Folding the case does not make other bytes than letters. -/
theorem asciiLower_eq_iff {b c : UInt8} (hc : c < 65) : asciiLower b = c ↔ b = c := by
  have hc' : c.toNat < 65 := hc
  unfold asciiLower
  split_ifs with h
  · have hb : 65 ≤ b.toNat ∧ b.toNat ≤ 90 := h
    rw [← UInt8.toNat_inj, ← UInt8.toNat_inj, UInt8.toNat_add]
    show (b.toNat + 32) % 256 = c.toNat ↔ b.toNat = c.toNat
    omega
  · exact Iff.rfl

theorem mem_iff_of_eqIgnoreAsciiCase {a b : Bytes} (h : eqIgnoreAsciiCase a b = true) {c : UInt8}
    (hc : c < 65) : c ∈ a ↔ c ∈ b := by
  have hmem : ∀ l : Bytes, c ∈ l ↔ c ∈ l.map asciiLower := by
    intro l
    rw [List.mem_map]
    refine ⟨fun hl => ⟨c, hl, (asciiLower_eq_iff hc).mpr rfl⟩, ?_⟩
    rintro ⟨b, hb, hbc⟩
    rwa [← (asciiLower_eq_iff hc).mp hbc]
  rw [hmem a, hmem b, eqIgnoreAsciiCase_iff.mp h]

/-- A text that starts with a name without a colon and a colon has the name. -/
theorem fieldNamed_of_startsWithName {text name : Bytes} (hname : colon ∉ name)
    (h : startsWithName text name = true) : FieldNamed text name := by
  unfold startsWithName at h
  simp only [Bool.and_eq_true, decide_eq_true_eq] at h
  obtain ⟨⟨hlt, hcase⟩, hcolon⟩ := h
  have hno : colon ∉ text.take name.length :=
    fun hmem => hname ((mem_iff_of_eqIgnoreAsciiCase hcase (by decide)).mp hmem)
  have hsplit : text = text.take name.length ++ colon :: text.drop (name.length + 1) := by
    obtain ⟨hlen, hget⟩ := List.getElem?_eq_some_iff.mp hcolon
    rw [← hget, List.getElem_cons_drop, List.take_append_drop]
  refine ⟨text.take name.length, ?_, hcase⟩
  unfold fieldName
  have hmem : colon ∈ text := by
    rw [hsplit]
    simp
  rw [if_pos hmem, Option.mem_some]
  generalize text.take name.length = front at hsplit hno
  rw [hsplit, List.takeWhile_append_of_pos]
  · simp
  · intro b hb
    simp only [decide_eq_true_eq, ne_eq]
    rintro rfl
    exact hno hb

/-- The name of a field has no colon, and no LF if the field has none. -/
theorem FieldNamed.notMem {text name : Bytes} (h : FieldNamed text name) :
    colon ∉ name ∧ (lf ∉ text → lf ∉ name) := by
  obtain ⟨n, hn, hcase⟩ := h
  unfold fieldName at hn
  split_ifs at hn with hcolon
  · obtain rfl : text.takeWhile (· ≠ colon) = n := by simpa using hn
    refine ⟨?_, ?_⟩
    · rw [← mem_iff_of_eqIgnoreAsciiCase hcase (by decide)]
      intro hmem
      simpa using List.mem_takeWhile_imp hmem
    · rw [← mem_iff_of_eqIgnoreAsciiCase hcase (by decide)]
      exact fun hlf hmem => hlf ((List.takeWhile_sublist _).subset hmem)
  · exact absurd hn (by simp)

/-! ### What is configured -/

/-- The value that a header shall have: that of the first map with the name, in any letter case. -/
def Assigned : List (HashMap Str Str) → Str → Str → Prop
  | [], _, _ => False
  | layer :: layers, name, value =>
    (∃ key, SameName key name ∧ layer.lookup key = some value) ∨
      (∀ key ∈ layer.keys, ¬ SameName key name) ∧ Assigned layers name value

/-- The client's address, the headers of the service, and the global ones. -/
def upstreamLayers (cfg : ScetyConfig) (headersConfig : Option HeadersConfig) (clientIp : Str) :
    List (HashMap Str Str) :=
  [AList.singleton xffName (xffIp clientIp), (headersConfig.bind (·.upstream)).getD ∅,
    cfg.globalUpstreamHeaders]

/-- The headers of the service, and the global ones. -/
def responseLayers (cfg : ScetyConfig) (headersConfig : Option HeadersConfig) :
    List (HashMap Str Str) :=
  [(headersConfig.bind (·.response)).getD ∅, cfg.globalResponseHeaders]

/-- The map that `sorted_headers` of the response is made of. -/
def responseMap (cfg : ScetyConfig) (headersConfig : Option HeadersConfig) : HashMap Str Str :=
  extendHeaders cfg.globalResponseHeaders (headersConfig.bind (·.response))

/-- The merged map holds for each name, as it is written, the value of the first map with it. -/
def IsMerge (headers : HashMap Str Str) (layers : List (HashMap Str Str)) : Prop :=
  ∀ key, headers.lookup key = layers.findSome? fun layer => layer.lookup key

/-- The program can emit the headers of the maps: no two names differ in letter case only, and the
line of each name with the value of the first map that has it is a field. -/
structure Emittable (g : HeadGrammar) (layers : List (HashMap Str Str)) : Prop where
  distinct : ∀ layer ∈ layers, ∀ layer' ∈ layers, ∀ a ∈ layer.keys, ∀ b ∈ layer'.keys,
    SameName a b → a = b
  isField : ∀ key value, (layers.findSome? fun layer => layer.lookup key) = some value →
    ':' ∉ key ∧ '\n' ∉ key ∧ '\n' ∉ value ∧ g.fieldOk (bytes (key ++ ": ".toList ++ value)) = true

/-- Each configured header is emitted once: the head sent has one field with its name, which is the
program's line with the value that the header shall have; request line and body are as received. -/
structure EmitsOnce (layers : List (HashMap Str Str)) (more : Bytes)
    (received sent : Head (UInt8 × Origin)) : Prop where
  request : sent.request = received.request
  once : ∀ layer ∈ layers, ∀ name ∈ layer.keys, ∃ key value, SameName key name ∧
    Assigned layers name value ∧
    (sent.fields.filter fun f => hasFieldName (bytes name) (f.map Carrier.marked.val)) =
      [ownBytes (bytes (key ++ ": ".toList ++ value))]
  rest : sent.rest.flatten = received.rest.flatten ++ clientBytes more

/-! ### Merging -/

theorem lookup_union (custom headers : HashMap Str Str) (key : Str) :
    (custom ∪ headers).lookup key = (custom.lookup key).or (headers.lookup key) := by
  cases hkey : custom.lookup key with
  | none => rw [AList.lookup_union_right (AList.lookup_eq_none.mp hkey), Option.none_or]
  | some value =>
    have hmem : key ∈ custom := AList.lookup_isSome.mp (by rw [hkey]; rfl)
    rw [AList.lookup_union_left hmem, hkey, Option.some_or]

theorem findSome?_lookup_cons (layer : HashMap Str Str) (layers : List (HashMap Str Str))
    (key : Str) : ((layer :: layers).findSome? fun layer => layer.lookup key) =
      (layer.lookup key).or (layers.findSome? fun layer => layer.lookup key) := by
  rw [List.findSome?_cons]
  cases layer.lookup key <;> rfl

theorem isMerge_extendHeaders (headers : HashMap Str Str) (custom : Option (HashMap Str Str)) :
    IsMerge (extendHeaders headers custom) [custom.getD ∅, headers] := by
  intro key
  rw [findSome?_lookup_cons, findSome?_lookup_cons, List.findSome?_nil, Option.or_none]
  cases custom with
  | none => rfl
  | some custom => exact lookup_union custom headers key

theorem isMerge_upstreamHeaders (cfg : ScetyConfig) (headersConfig : Option HeadersConfig)
    (clientIp : Str) : IsMerge (upstreamHeaders cfg headersConfig clientIp)
      (upstreamLayers cfg headersConfig clientIp) := by
  intro key
  unfold upstreamHeaders upstreamLayers
  rw [findSome?_lookup_cons, ← isMerge_extendHeaders, ← AList.insert_empty]
  by_cases hkey : key = xffName
  · subst hkey
    rw [AList.lookup_insert, AList.lookup_insert, Option.some_or]
  · rw [AList.lookup_insert_ne hkey, AList.lookup_insert_ne hkey, AList.lookup_empty,
      Option.none_or]

/-- A name is configured if one of the maps has it. -/
theorem IsMerge.mem_keys_iff {headers : HashMap Str Str} {layers : List (HashMap Str Str)}
    (h : IsMerge headers layers) {key : Str} :
    key ∈ headers.keys ↔ ∃ layer ∈ layers, key ∈ layer.keys := by
  rw [← AList.mem_keys, ← AList.lookup_isSome, h key, List.findSome?_isSome_iff]
  refine exists_congr fun layer => and_congr_right fun _ => ?_
  rw [AList.lookup_isSome, AList.mem_keys]

theorem IsMerge.keys_eq_nil_iff {headers : HashMap Str Str} {layers : List (HashMap Str Str)}
    (h : IsMerge headers layers) : headers.keys = [] ↔ ∀ layer ∈ layers, layer.keys = [] := by
  simp only [List.eq_nil_iff_forall_not_mem, h.mem_keys_iff, not_exists, not_and]
  exact ⟨fun h layer hlayer a => h a layer hlayer, fun h a layer hlayer => h layer hlayer a⟩

theorem Emittable.eq_of_sameName {g : HeadGrammar} {headers : HashMap Str Str}
    {layers : List (HashMap Str Str)} (h : Emittable g layers) (hmerge : IsMerge headers layers) :
    ∀ a ∈ headers.keys, ∀ b ∈ headers.keys, SameName a b → a = b := by
  intro a ha b hb hsame
  obtain ⟨layer, hlayer, ha'⟩ := hmerge.mem_keys_iff.mp ha
  obtain ⟨layer', hlayer', hb'⟩ := hmerge.mem_keys_iff.mp hb
  exact h.distinct layer hlayer layer' hlayer' a ha' b hb' hsame

theorem Emittable.isField_of_lookup {g : HeadGrammar} {headers : HashMap Str Str}
    {layers : List (HashMap Str Str)} (h : Emittable g layers) (hmerge : IsMerge headers layers)
    {key value : Str} (hvalue : headers.lookup key = some value) :
    ':' ∉ key ∧ '\n' ∉ key ∧ '\n' ∉ value ∧
      g.fieldOk (bytes (key ++ ": ".toList ++ value)) = true :=
  h.isField key value ((hmerge key).symm.trans hvalue)

/-- Where no two names are the same, the value of a name is the one it shall have. -/
theorem assigned_iff_of_distinct {layers : List (HashMap Str Str)} {key : Str}
    (hdistinct : ∀ layer ∈ layers, ∀ key' ∈ layer.keys, SameName key' key → key' = key)
    {value : Str} :
    Assigned layers key value ↔ (layers.findSome? fun layer => layer.lookup key) = some value := by
  induction layers with
  | nil => simp [Assigned]
  | cons layer layers ih =>
    obtain ⟨hlayer, hlayers⟩ := List.forall_mem_cons.mp hdistinct
    have hsome : (∃ key', SameName key' key ∧ layer.lookup key' = some value) ↔
        layer.lookup key = some value := by
      refine ⟨?_, fun h => ⟨key, .refl key, h⟩⟩
      rintro ⟨key', hsame, hvalue⟩
      rwa [← hlayer key' (mem_keys_of_lookup hvalue) hsame]
    have hnone : (∀ key' ∈ layer.keys, ¬ SameName key' key) ↔ layer.lookup key = none := by
      rw [AList.lookup_eq_none, AList.mem_keys]
      refine ⟨fun h hmem => h key hmem (.refl key), ?_⟩
      intro hno key' hmem hsame
      exact hno (hlayer key' hmem hsame ▸ hmem)
    rw [Assigned, hsome, hnone, ih hlayers, findSome?_lookup_cons]
    cases layer.lookup key <;> simp

/-! ### The lines of the program -/

section OwnLines

variable {g : HeadGrammar} {headers : HashMap Str Str} {layers : List (HashMap Str Str)}
  {e : Str × Str}

/-- The line of a header, which has several lines if its name or value has an LF. -/
def entryLines (e : Str × Str) : List (List (UInt8 × Origin)) :=
  linesOf .marked (ownBytes (headerLine e))

/-- The field that a header shall make. -/
def entryField (e : Str × Str) : List (UInt8 × Origin) :=
  ownBytes (bytes (e.1 ++ ": ".toList ++ e.2))

theorem linesOf_ownBlock (headers : HashMap Str Str) :
    linesOf .marked (ownBytes (ownBlock headers)) = (sortedHeaders headers).flatMap entryLines := by
  unfold ownBlock
  induction sortedHeaders headers with
  | nil => rfl
  | cons e es ih =>
    have hend : Terminated (fun a => decide (Carrier.marked.val a = lf))
        (ownBytes (headerLine e)) := by
      intro a ha
      simp [ownBytes, headerLine, crlf] at ha
      rw [← ha]
      rfl
    have happend : ownBytes (headerLine e ++ es.flatMap headerLine) =
        ownBytes (headerLine e) ++ ownBytes (es.flatMap headerLine) := List.map_append
    rw [List.flatMap_cons, List.flatMap_cons, happend, ← ih]
    exact splitInclusive_append hend _

theorem lineContent_headerLine (e : Str × Str) :
    lineContent .marked (ownBytes (headerLine e)) = some (entryField e) := by
  have hline : ownBytes (headerLine e) = entryField e ++ [(cr, .scety), (lf, .scety)] :=
    List.map_append
  rw [hline]
  unfold lineContent
  rw [show entryField e ++ [(cr, .scety), (lf, .scety)] =
    (entryField e ++ [(cr, Origin.scety)]) ++ [(lf, .scety)] by simp, List.getLast?_concat,
    List.dropLast_concat, List.getLast?_concat, List.dropLast_concat]
  rfl

/-- A header without LF is one line. -/
theorem entryLines_eq (hkey : '\n' ∉ e.1) (hvalue : '\n' ∉ e.2) :
    entryLines e = [ownBytes (headerLine e)] := by
  have hline : IsLine (fun a => decide (Carrier.marked.val a = lf)) (ownBytes (headerLine e)) := by
    refine ⟨entryField e ++ [(cr, .scety)], (lf, .scety), ?_, rfl, ?_⟩
    · rw [List.append_assoc]
      exact List.map_append
    · intro b hb
      rw [decide_eq_false_iff_not]
      rcases List.mem_append.mp hb with hb | hb
      · obtain ⟨a, ha, rfl⟩ := List.mem_map.mp hb
        rintro rfl
        rw [mem_bytes_iff (by decide), List.mem_append, List.mem_append] at ha
        rcases ha with (ha | ha) | ha
        · exact hkey ha
        · exact absurd ha (by decide)
        · exact hvalue ha
      · obtain rfl := List.mem_singleton.mp hb
        decide
  have hsplit := splitInclusive_append_of_isLine hline []
  rw [List.append_nil] at hsplit
  exact hsplit

theorem isField_headerLine (hok : g.fieldOk (bytes (e.1 ++ ": ".toList ++ e.2)) = true) :
    IsField .marked g (ownBytes (headerLine e)) := by
  refine ⟨_, lineContent_headerLine e, ?_, ?_⟩
  · intro hnil
    have hval := congrArg (List.map Carrier.marked.val) hnil
    rw [entryField, map_val_ownBytes, bytes_header] at hval
    exact absurd hval (by simp)
  · rw [entryField, map_val_ownBytes]
    exact hok

theorem fieldName_header {key value : Str} (h : ':' ∉ key) :
    fieldName (bytes (key ++ ": ".toList ++ value)) = some (bytes key) := by
  have hno : ∀ b ∈ bytes key, decide (b ≠ colon) = true := by
    intro b hb
    rw [decide_eq_true_eq]
    rintro rfl
    exact h ((mem_bytes_iff (by decide)).mp hb)
  unfold fieldName
  rw [bytes_header, if_pos (by simp), List.takeWhile_append_of_pos hno]
  simp

/-- The field of a header has the name of the header. -/
theorem hasFieldName_entryField {name : Str} (h : ':' ∉ e.1) :
    hasFieldName (bytes name) ((entryField e).map Carrier.marked.val) = true ↔
      SameName e.1 name := by
  unfold hasFieldName entryField
  rw [map_val_ownBytes, fieldName_header h]
  exact Iff.rfl

/-- What is read from headers that can be emitted. -/
theorem ownFields_of_emittable (hmerge : IsMerge headers layers) (h : Emittable g layers) :
    ownFields g headers = some ((sortedHeaders headers).map entryField, []) := by
  have hentry : ∀ e ∈ sortedHeaders headers, entryLines e = [ownBytes (headerLine e)] ∧
      IsField .marked g (ownBytes (headerLine e)) := by
    intro e he
    obtain ⟨-, hkey, hvalue, hok⟩ := h.isField_of_lookup hmerge (mem_sortedHeaders_iff.mp he)
    exact ⟨entryLines_eq hkey hvalue, isField_headerLine hok⟩
  have hlines : (sortedHeaders headers).flatMap entryLines =
      (sortedHeaders headers).map fun e => ownBytes (headerLine e) := by
    rw [← List.flatMap_singleton' ((sortedHeaders headers).map _), List.flatMap_map]
    exact List.flatMap_congr fun e he => (hentry e he).1
  have hfields : ∀ l ∈ (sortedHeaders headers).map fun e => ownBytes (headerLine e),
      IsField .marked g l := by
    intro l hl
    obtain ⟨e, he, rfl⟩ := List.mem_map.mp hl
    exact (hentry e he).2
  have hblank : IsBlank .marked (clientBytes crlf) := rfl
  unfold ownFields
  rw [linesOf_ownBlock, hlines, readFields_append hfields, readFields_blank hblank,
    Option.map_some, List.append_nil, List.map_map]
  congr 2
  apply List.map_congr_left
  intro e _
  exact textOf_eq (lineContent_headerLine e)

/-- A list without duplicates whose elements are all the same. -/
theorem eq_singleton_of_forall {α : Type} {l : List α} {x : α} (hnodup : l.Nodup) (hx : x ∈ l)
    (hall : ∀ y ∈ l, y = x) : l = [x] := by
  obtain ⟨u, v, rfl⟩ := List.append_of_mem hx
  have hu : u = [] := by
    refine List.eq_nil_iff_forall_not_mem.mpr fun y hy => ?_
    obtain rfl := hall y (List.mem_append_left _ hy)
    exact (List.nodup_append.mp hnodup).2.2 y hy y List.mem_cons_self rfl
  subst hu
  have hv : v = [] := by
    refine List.eq_nil_iff_forall_not_mem.mpr fun y hy => ?_
    obtain rfl := hall y (by simp [hy])
    exact (List.nodup_cons.mp hnodup).1 hy
  rw [hv]
  rfl

/-- Of the fields of the program one has a given name of the map. -/
theorem filter_entryField (hmerge : IsMerge headers layers) (h : Emittable g layers)
    {name value : Str} (hvalue : headers.lookup name = some value) :
    (((sortedHeaders headers).map entryField).filter fun f =>
      hasFieldName (bytes name) (f.map Carrier.marked.val)) = [entryField (name, value)] := by
  have hname := mem_keys_of_lookup hvalue
  have hfilter : ∀ e ∈ sortedHeaders headers,
      (hasFieldName (bytes name) ((entryField e).map Carrier.marked.val) = true ↔
        e = (name, value)) := by
    intro e he
    have hlookup := mem_sortedHeaders_iff.mp he
    rw [hasFieldName_entryField (h.isField_of_lookup hmerge hlookup).1]
    refine ⟨?_, ?_⟩
    · intro hsame
      obtain ⟨key, v⟩ := e
      obtain rfl : key = name :=
        h.eq_of_sameName hmerge key (mem_keys_of_lookup hlookup) name hname hsame
      exact Prod.ext rfl (Option.some.inj (hlookup.symm.trans hvalue))
    · rintro rfl
      exact .refl name
  rw [List.filter_map]
  refine congrArg (List.map entryField) (eq_singleton_of_forall ?_ ?_ ?_)
  · exact ((nodup_sortedHeaders headers).of_map _).filter _
  · have hmem := mem_sortedHeaders_iff.mpr hvalue
    exact List.mem_filter.mpr ⟨hmem, (hfilter _ hmem).mpr rfl⟩
  · intro e he
    obtain ⟨hmem, hsame⟩ := List.mem_filter.mp he
    exact (hfilter e hmem).mp hsame

end OwnLines

/-! ### Headers that can be emitted -/

section Emits

variable {g : HeadGrammar} {headers : HashMap Str Str} {layers : List (HashMap Str Str)}
  {data more : Bytes} {head : Head (UInt8 × Origin)} {names : List Bytes}
  {own : List (List (UInt8 × Origin)) × List (List (UInt8 × Origin))}

/-- Where no two names are the same, the value of a name is that of the merged map. -/
theorem assigned_iff (hmerge : IsMerge headers layers)
    (hdistinct : ∀ a ∈ headers.keys, ∀ b ∈ headers.keys, SameName a b → a = b) {key value : Str}
    (hkey : key ∈ headers.keys) : Assigned layers key value ↔ headers.lookup key = some value := by
  rw [hmerge key]
  apply assigned_iff_of_distinct
  intro layer hlayer key' hkey' hsame
  exact hdistinct key' (hmerge.mem_keys_iff.mpr ⟨layer, hlayer, hkey'⟩) key hkey hsame

theorem emitsOnce_of_emittable (hmerge : IsMerge headers layers) (h : Emittable g layers) :
    EmitsOnce layers more head (sentHead (headers.keys.map bytes) head
      ((sortedHeaders headers).map entryField, []) more) := by
  refine ⟨rfl, ?_, ?_⟩
  · intro layer hlayer name hname
    have hkey := hmerge.mem_keys_iff.mpr ⟨layer, hlayer, hname⟩
    obtain ⟨value, hvalue⟩ := exists_lookup_of_mem_keys hkey
    have hkept : (keptFields (headers.keys.map bytes) head.fields).filter
        (fun f => hasFieldName (bytes name) (f.map Carrier.marked.val)) = [] := by
      rw [List.filter_eq_nil_iff]
      intro f hf hnamed
      exact not_fieldNamed_of_mem_keptFields hf (bytes name) (List.mem_map.mpr ⟨name, hkey, rfl⟩)
        (hasFieldName_iff.mp hnamed)
    have hassigned := (assigned_iff hmerge (h.eq_of_sameName hmerge) hkey).mpr hvalue
    refine ⟨name, value, .refl name, hassigned, ?_⟩
    unfold sentHead
    rw [List.filter_append, hkept, filter_entryField hmerge h hvalue]
    rfl
  · exact flatten_splitInclusive _ _

/-- If the rest of the message is as received, every added line is a field. -/
theorem isField_of_rest
    (hown : ownFields g headers = some own)
    (hrest : (sentHead names head own more).rest.flatten = head.rest.flatten ++ clientBytes more) :
    (∀ l ∈ (sortedHeaders headers).flatMap entryLines, IsField .marked g l) ∧
      own.1 = ((sortedHeaders headers).flatMap entryLines).map (textOf .marked) := by
  obtain ⟨fs, z, hlines, -, hfs, hfields⟩ := readFields_eq_some hown
  have hempty : own.2 = [] := by
    have hflat : own.2.flatten = [] := by
      have hall : own.2.flatten ++ (head.rest.flatten ++ clientBytes more) =
          head.rest.flatten ++ clientBytes more := by
        refine Eq.trans ?_ hrest
        show _ = (own.2 ++ linesOf .marked _).flatten
        rw [List.flatten_append]
        exact congrArg _ (flatten_splitInclusive _ _).symm
      exact List.append_left_eq_self.mp hall
    refine List.eq_nil_iff_forall_not_mem.mpr fun l hl => ?_
    have hmem : l ∈ linesOf .marked (ownBytes (ownBlock headers)) ++ [clientBytes crlf] := by
      rw [hlines]
      simp [hl]
    have hnil : l = [] := List.flatten_eq_nil_iff.mp hflat l hl
    rcases List.mem_append.mp hmem with hmem | hmem
    · obtain ⟨u, a, hu, -⟩ := exists_of_mem hmem
      rw [hnil] at hu
      exact absurd hu (by simp)
    · rw [List.mem_singleton.mp hmem] at hnil
      exact absurd hnil (by decide)
  rw [hempty] at hlines
  obtain ⟨hlines, -⟩ := List.append_inj' hlines rfl
  rw [linesOf_ownBlock] at hlines
  rw [hlines]
  exact ⟨hfs, hfields⟩

/-- The text of a line has no LF. -/
theorem lf_notMem_of_lineContent {text line content : List (UInt8 × Origin)}
    (hline : line ∈ linesOf .marked text) (h : lineContent .marked line = some content) :
    lf ∉ content.map Carrier.marked.val := by
  obtain ⟨t, rfl, ht⟩ := exists_of_lineContent h
  obtain ⟨u, a, hu, hno⟩ := exists_of_mem hline
  intro hmem
  obtain ⟨b, hb, hlf⟩ := List.mem_map.mp hmem
  have hne : t ≠ [] := by
    rintro rfl
    rcases ht with ht | ⟨ht, -⟩ <;> exact absurd ht (by decide)
  obtain ⟨s, c, rfl⟩ := (List.eq_nil_or_concat t).resolve_left hne
  rw [List.concat_eq_append, ← List.append_assoc] at hu
  obtain ⟨rfl, -⟩ := List.append_inj' hu rfl
  exact absurd (hno b (List.mem_append_left _ hb)) (by simp [hlf])

/-- Each header makes a field with its name. -/
theorem exists_named_field {e : Str × Str} (hkey : ':' ∉ e.1) (hlf : '\n' ∉ e.1)
    (hfields : ∀ l ∈ entryLines e, IsField .marked g l) :
    ∃ f ∈ (entryLines e).map (textOf .marked),
      hasFieldName (bytes e.1) (f.map Carrier.marked.val) = true := by
  have hcolon : colon ∉ bytes e.1 := fun hmem => hkey ((mem_bytes_iff (by decide)).mp hmem)
  have hno : ∀ b ∈ ownBytes (bytes e.1 ++ [colon]), decide (Carrier.marked.val b = lf) = false := by
    intro b hb
    obtain ⟨a, ha, rfl⟩ := List.mem_map.mp hb
    rw [decide_eq_false_iff_not]
    rintro rfl
    rcases List.mem_append.mp ha with ha | ha
    · exact hlf ((mem_bytes_iff (by decide)).mp ha)
    · exact absurd ha (by decide)
  have hline : ownBytes (headerLine e) =
      ownBytes (bytes e.1 ++ [colon]) ++ ownBytes (32 :: bytes e.2 ++ crlf) := by
    unfold headerLine ownBytes
    rw [bytes_header, ← List.map_append]
    simp
  obtain ⟨s, ss, hsplit⟩ := splitInclusive_append_front hno
    (show ownBytes (32 :: bytes e.2 ++ crlf) ≠ [] by simp [ownBytes])
  rw [← hline] at hsplit
  have hmem : ownBytes (bytes e.1 ++ [colon]) ++ s ∈ entryLines e := by
    show _ ∈ splitInclusive _ _
    rw [hsplit]
    exact List.mem_cons_self
  refine ⟨_, List.mem_map.mpr ⟨_, hmem, rfl⟩, ?_⟩
  obtain ⟨text, htext, -⟩ := hfields _ hmem
  rw [textOf_eq htext, hasFieldName_iff]
  apply fieldNamed_of_startsWithName hcolon
  obtain ⟨t, heq, ht⟩ := exists_of_lineContent htext
  have hval : bytes e.1 ++ colon :: s.map Carrier.marked.val =
      text.map Carrier.marked.val ++ t.map Carrier.marked.val := by
    rw [← List.map_append, ← heq, List.map_append, map_val_ownBytes]
    simp
  have hstarts := startsWithName_front (bytes e.1) (s.map Carrier.marked.val)
  rw [hval] at hstarts
  rcases ht with ht | ⟨ht, -⟩
  · rwa [ht, startsWithName_append_crlf] at hstarts
  · rwa [ht, startsWithName_append (by decide)] at hstarts

/-- In a filter with one result one element of the list has the result. -/
theorem eq_of_flatMap_length_le {α β : Type} {l : List α} {f : α → List β}
    (h : (l.flatMap f).length ≤ 1) {a b : α} (ha : a ∈ l) (hb : b ∈ l) (hfa : f a ≠ [])
    (hfb : f b ≠ []) : a = b := by
  induction l with
  | nil => exact absurd ha List.not_mem_nil
  | cons c l ih =>
    rw [List.flatMap_cons, List.length_append] at h
    have hpos : ∀ x ∈ l, f x ≠ [] → 0 < (l.flatMap f).length := by
      intro x hx hfx
      obtain ⟨y, hy⟩ := List.exists_mem_of_ne_nil _ hfx
      exact List.length_pos_of_mem (List.mem_flatMap.mpr ⟨x, hx, hy⟩)
    have hc : ∀ x ∈ l, f x ≠ [] → f c = [] := by
      intro x hx hfx
      have hlen := hpos x hx hfx
      exact List.eq_nil_of_length_eq_zero (by omega)
    rcases List.mem_cons.mp ha with rfl | hal
    · rcases List.mem_cons.mp hb with rfl | hbl
      · rfl
      · exact absurd (hc b hbl hfb) hfa
    · rcases List.mem_cons.mp hb with rfl | hbl
      · exact absurd (hc a hal hfa) hfb
      · exact ih (by omega) hal hbl

/-- The one field with the name of a header is one of the program's lines. -/
theorem exists_ownField
    (hhead : readHead .marked g (linesOf .marked (clientBytes data)) = some head)
    (hmerge : IsMerge headers layers)
    (h : EmitsOnce layers more head (sentHead names head own more)) {name : Str}
    (hname : name ∈ headers.keys) :
    ∃ key value, Assigned layers name value ∧ entryField (key, value) ∈ own.1 ∧
      hasFieldName (bytes name) ((entryField (key, value)).map Carrier.marked.val) = true ∧
        (own.1.filter fun f => hasFieldName (bytes name) (f.map Carrier.marked.val)).length ≤ 1 := by
  obtain ⟨layer, hlayer, hmem⟩ := hmerge.mem_keys_iff.mp hname
  obtain ⟨key, value, -, hassigned, hfilter⟩ := h.once layer hlayer name hmem
  have hfield : entryField (key, value) ∈ (sentHead names head own more).fields.filter fun f =>
      hasFieldName (bytes name) (f.map Carrier.marked.val) := by
    rw [hfilter]
    exact List.mem_singleton.mpr rfl
  obtain ⟨hsent, hnamed⟩ := List.mem_filter.mp hfield
  refine ⟨key, value, hassigned, (ownBytes_mem_sentHead_iff hhead).mp hsent, hnamed, ?_⟩
  have hlen := congrArg List.length hfilter
  unfold sentHead at hlen
  rw [List.filter_append, List.length_append, List.length_singleton] at hlen
  omega

/-- The text of an added field has no LF. -/
theorem lf_notMem_ownField
    (hfields : ∀ l ∈ (sortedHeaders headers).flatMap entryLines, IsField .marked g l)
    (hown : own.1 = ((sortedHeaders headers).flatMap entryLines).map (textOf .marked))
    {f : List (UInt8 × Origin)} (hf : f ∈ own.1) : lf ∉ f.map Carrier.marked.val := by
  rw [hown] at hf
  obtain ⟨l, hl, rfl⟩ := List.mem_map.mp hf
  obtain ⟨e, -, hle⟩ := List.mem_flatMap.mp hl
  obtain ⟨text, htext, -⟩ := hfields l hl
  rw [textOf_eq htext]
  exact lf_notMem_of_lineContent hle htext

/-- A name that an added field has is free of colons and of line ends. -/
theorem notMem_of_ownField
    (hfields : ∀ l ∈ (sortedHeaders headers).flatMap entryLines, IsField .marked g l)
    (hown : own.1 = ((sortedHeaders headers).flatMap entryLines).map (textOf .marked))
    {f : List (UInt8 × Origin)} (hf : f ∈ own.1) {name : Str}
    (hnamed : hasFieldName (bytes name) (f.map Carrier.marked.val) = true) :
    ':' ∉ name ∧ '\n' ∉ name := by
  obtain ⟨hcolon, hlf⟩ := (hasFieldName_iff.mp hnamed).notMem
  have hnoLf := lf_notMem_ownField hfields hown hf
  refine ⟨?_, ?_⟩
  · exact fun hmem => hcolon ((mem_bytes_iff (by decide)).mpr hmem)
  · exact fun hmem => hlf hnoLf ((mem_bytes_iff (by decide)).mpr hmem)

/-- If one added field at most has a name, one header of the map at most has it. -/
theorem eq_of_ownField_length_le
    (hfields : ∀ l ∈ (sortedHeaders headers).flatMap entryLines, IsField .marked g l)
    (hown : own.1 = ((sortedHeaders headers).flatMap entryLines).map (textOf .marked))
    (hkeys : ∀ name ∈ headers.keys, ':' ∉ name ∧ '\n' ∉ name) {a b : Str} (ha : a ∈ headers.keys)
    (hb : b ∈ headers.keys) (hsame : SameName a b)
    (hlen : (own.1.filter fun f => hasFieldName (bytes a) (f.map Carrier.marked.val)).length ≤ 1) :
    a = b := by
  obtain ⟨va, hva⟩ := exists_lookup_of_mem_keys ha
  obtain ⟨vb, hvb⟩ := exists_lookup_of_mem_keys hb
  have hma := mem_sortedHeaders_iff.mpr hva
  have hmb := mem_sortedHeaders_iff.mpr hvb
  rw [hown, List.map_flatMap, List.filter_flatMap] at hlen
  have hne : ∀ e ∈ sortedHeaders headers, SameName a e.1 →
      (((entryLines e).map (textOf .marked)).filter fun f =>
        hasFieldName (bytes a) (f.map Carrier.marked.val)) ≠ [] := by
    intro e he hae
    obtain ⟨hcolon, hlf⟩ := hkeys e.1 (mem_keys_of_lookup (mem_sortedHeaders_iff.mp he))
    obtain ⟨f, hf, hnamed⟩ := exists_named_field hcolon hlf fun l hl =>
      hfields l (List.mem_flatMap.mpr ⟨e, he, hl⟩)
    refine List.ne_nil_of_mem (List.mem_filter.mpr ⟨hf, ?_⟩)
    rw [hasFieldName_congr hae]
    exact hnamed
  have heq := eq_of_flatMap_length_le hlen hma hmb (hne _ hma (.refl a)) (hne _ hmb hsame)
  exact (Prod.mk.inj heq).1

/-- A header whose field is one of the program's is a field of the grammar on its one line. -/
theorem fieldOk_of_ownField
    (hfields : ∀ l ∈ (sortedHeaders headers).flatMap entryLines, IsField .marked g l)
    {name value : Str} (hvalue : headers.lookup name = some value) (hname : '\n' ∉ name)
    (hlf : '\n' ∉ value) : g.fieldOk (bytes (name ++ ": ".toList ++ value)) = true := by
  have hlines := entryLines_eq (e := (name, value)) hname hlf
  obtain ⟨text, htext, -, hok⟩ := hfields (ownBytes (headerLine (name, value)))
    (List.mem_flatMap.mpr ⟨_, mem_sortedHeaders_iff.mpr hvalue, by rw [hlines]; simp⟩)
  obtain rfl := Option.some.inj (htext.symm.trans (lineContent_headerLine _))
  rwa [entryField, map_val_ownBytes] at hok

theorem emittable_of_emitsOnce
    (hhead : readHead .marked g (linesOf .marked (clientBytes data)) = some head)
    (hmerge : IsMerge headers layers) (hown : ownFields g headers = some own)
    (h : EmitsOnce layers more head (sentHead names head own more)) : Emittable g layers := by
  obtain ⟨hfields, hown1⟩ := isField_of_rest hown h.rest
  have hkeys : ∀ name ∈ headers.keys, ':' ∉ name ∧ '\n' ∉ name := by
    intro name hname
    obtain ⟨key, value, -, hmem, hnamed, -⟩ := exists_ownField hhead hmerge h hname
    exact notMem_of_ownField hfields hown1 hmem hnamed
  have hdistinct : ∀ a ∈ headers.keys, ∀ b ∈ headers.keys, SameName a b → a = b := by
    intro a ha b hb hsame
    obtain ⟨-, -, -, -, -, hlen⟩ := exists_ownField hhead hmerge h ha
    exact eq_of_ownField_length_le hfields hown1 hkeys ha hb hsame hlen
  refine ⟨?_, ?_⟩
  · intro layer hlayer layer' hlayer' a ha b hb
    exact hdistinct a (hmerge.mem_keys_iff.mpr ⟨layer, hlayer, ha⟩) b
      (hmerge.mem_keys_iff.mpr ⟨layer', hlayer', hb⟩)
  intro name value hfirst
  have hvalue : headers.lookup name = some value := (hmerge name).trans hfirst
  have hname := mem_keys_of_lookup hvalue
  obtain ⟨key, value', hassigned, hmem, -, -⟩ := exists_ownField hhead hmerge h hname
  obtain rfl : value' = value :=
    Option.some.inj (((assigned_iff hmerge hdistinct hname).mp hassigned).symm.trans hvalue)
  have hlf : '\n' ∉ value' := by
    intro hin
    refine lf_notMem_ownField hfields hown1 hmem ?_
    rw [entryField, map_val_ownBytes, mem_bytes_iff (by decide)]
    exact List.mem_append_right _ hin
  obtain ⟨hcolon, hlf'⟩ := hkeys name hname
  exact ⟨hcolon, hlf', hlf, fieldOk_of_ownField hfields hvalue hlf' hlf⟩

theorem anchored_emitsOnce (hmerge : IsMerge headers layers) (h0 : headers.keys ≠ []) :
    Anchored (EmitsOnce layers more) := by
  refine ⟨fun h => h.request, ?_⟩
  intro head sent h
  obtain ⟨name, hname⟩ := List.exists_mem_of_ne_nil _ h0
  obtain ⟨layer, hlayer, hmem⟩ := hmerge.mem_keys_iff.mp hname
  obtain ⟨key, value, -, -, hfilter⟩ := h.once layer hlayer name hmem
  have hmem' : ownBytes (bytes (key ++ ": ".toList ++ value)) ∈ sent.fields.filter fun f =>
      hasFieldName (bytes name) (f.map Carrier.marked.val) := by
    rw [hfilter]
    exact List.mem_singleton.mpr rfl
  exact ⟨_, (List.mem_filter.mp hmem').1⟩

/-- The first CRLFCRLF of the message is the end of its head, the request line is not taken for a
line to strip, and the headers can be emitted. -/
structure EmitsAtHeadEnd (g : HeadGrammar) (layers : List (HashMap Str Str)) (data : Bytes) :
    Prop where
  headEnd : ∀ head, readHead .plain g (linesOf .plain data) = some head →
    (findWindow crlfCrlf data).map (· + 4) = some (data.length - head.rest.flatten.length)
  request : ∀ head, readHead .plain g (linesOf .plain data) = some head →
    ∀ layer ∈ layers, ∀ name ∈ layer.keys, startsWithName head.request (bytes name) = false
  emittable : Emittable g layers

/-- The condition on the head, over the names of the merged map. -/
theorem emitsAtHeadEnd_iff (hmerge : IsMerge headers layers) :
    EmitsAtHeadEnd g layers data ↔ (∀ h, readHead .plain g (linesOf .plain data) = some h →
      (findWindow crlfCrlf data).map (· + 4) = some (data.length - h.rest.flatten.length) ∧
        ∀ name ∈ headers.keys.map bytes, startsWithName h.request name = false) ∧
      Emittable g layers := by
  refine ⟨?_, ?_⟩
  · intro h
    refine ⟨fun head hhead => ⟨h.headEnd head hhead, ?_⟩, h.emittable⟩
    intro name hname
    obtain ⟨key, hkey, rfl⟩ := List.mem_map.mp hname
    obtain ⟨layer, hlayer, hmem⟩ := hmerge.mem_keys_iff.mp hkey
    exact h.request head hhead layer hlayer key hmem
  · rintro ⟨hall, hemit⟩
    refine ⟨fun head hhead => (hall head hhead).1, ?_, hemit⟩
    intro head hhead layer hlayer name hname
    exact (hall head hhead).2 _
      (List.mem_map.mpr ⟨name, hmerge.mem_keys_iff.mpr ⟨layer, hlayer, hname⟩, rfl⟩)

/-- **Emitted once**, for a message and whatever follows it. -/
theorem emitsOnce_iff (hmerge : IsMerge headers layers) (h0 : headers.keys ≠ [])
    (hread : (readHead .plain g (linesOf .plain data)).isSome = true) (more : Bytes) :
    Forwards g (EmitsOnce layers more) (clientBytes data)
        (finalBuf .marked headers (clientBytes data) ++ clientBytes more) ↔
      EmitsAtHeadEnd g layers data := by
  obtain ⟨head, hhead⟩ := exists_head_of_isSome hread
  rw [forwards_clientBytes_iff (anchored_emitsOnce hmerge h0) hhead (sortedHeaders_ne_nil h0),
    ← forall_head_iff hhead, emitsAtHeadEnd_iff hmerge]
  refine ⟨?_, ?_⟩
  · rintro ⟨hend, own, hown, h⟩
    exact ⟨hend, emittable_of_emitsOnce hhead hmerge hown h⟩
  · rintro ⟨hend, hemit⟩
    exact ⟨hend, _, ownFields_of_emittable hmerge hemit, emitsOnce_of_emittable hmerge hemit⟩

/-! ### The response -/

/-- The bytes of the upstream and of the program that the client gets. -/
def relayedMarked (headers : HashMap Str Str) (maxBuf : ℕ) (stream : Bytes) :
    List (UInt8 × Origin) :=
  match findWindow crlfCrlf stream with
  | some pos =>
    if pos + 4 ≤ maxBuf then finalBuf .marked headers (clientBytes stream) else clientBytes stream
  | none => clientBytes stream

/-- The response has a head; and if headers are configured, the head ends within the bound and they
are emitted there. -/
def RelaysOnce (g : HeadGrammar) (layers : List (HashMap Str Str)) (maxBuf : ℕ)
    (stream : Bytes) : Prop :=
  (readHead .plain g (linesOf .plain stream)).isSome = true ∧
    ((∀ layer ∈ layers, layer.keys = []) ∨
      (∀ pos, findWindow crlfCrlf stream = some pos → pos + 4 ≤ maxBuf) ∧
        EmitsAtHeadEnd g layers stream)

/-- A message that is forwarded as it is emits no header. -/
theorem not_emitsOnce_of_same (hmerge : IsMerge headers layers) (h0 : headers.keys ≠ [])
    (hhead : readHead .marked g (linesOf .marked (clientBytes data)) = some head) :
    ¬ Forwards g (EmitsOnce layers more) (clientBytes data) (clientBytes data) := by
  rw [forwards_iff hhead]
  rintro ⟨sent, hsent, h⟩
  obtain rfl := Option.some.inj (hhead.symm.trans hsent)
  obtain ⟨text, htext⟩ := (anchored_emitsOnce hmerge h0).own h
  obtain ⟨hclient, hne⟩ := isClients_fields hhead _ htext
  exact hclient.not_isOwn hne (isOwn_ownBytes text)

/-- Without headers nothing is changed. -/
theorem relayedMarked_of_keys_nil (h : headers.keys = []) (maxBuf : ℕ) (stream : Bytes) :
    relayedMarked headers maxBuf stream = clientBytes stream := by
  have hsorted : sortedHeaders headers = [] := by
    refine List.eq_nil_iff_forall_not_mem.mpr fun e he => ?_
    have hmem := mem_keys_of_lookup (mem_sortedHeaders_iff.mp he)
    rw [h] at hmem
    exact absurd hmem List.not_mem_nil
  unfold relayedMarked finalBuf
  cases hpos : findWindow crlfCrlf stream with
  | none => rfl
  | some pos =>
    dsimp only
    split_ifs
    · rw [map_val_clientBytes, hpos, h, hsorted]
      exact rewriteHead_nil _ _ _
    · rfl

/-- Without headers nothing is asked for. -/
theorem emitsOnce_of_keys_nil (hmerge : IsMerge headers layers) (h : headers.keys = [])
    (head : Head (UInt8 × Origin)) : EmitsOnce layers [] head head := by
  refine ⟨rfl, ?_, (List.append_nil _).symm⟩
  intro layer hlayer name hname
  have hmem := hmerge.mem_keys_iff.mpr ⟨layer, hlayer, hname⟩
  rw [h] at hmem
  exact absurd hmem List.not_mem_nil

theorem emitsOnce_relayed_iff (hmerge : IsMerge headers layers) (maxBuf : ℕ) (stream : Bytes) :
    Forwards g (EmitsOnce layers []) (clientBytes stream) (relayedMarked headers maxBuf stream) ↔
      RelaysOnce g layers maxBuf stream := by
  unfold RelaysOnce
  cases hread : readHead .marked g (linesOf .marked (clientBytes stream)) with
  | none =>
    refine iff_of_false ?_ ?_
    · rintro ⟨head, sent, hhead, -⟩
      exact absurd (hread.symm.trans hhead) (by simp)
    · rintro ⟨hsome, -⟩
      obtain ⟨head, hhead⟩ := exists_head_of_isSome hsome
      exact absurd (hread.symm.trans hhead) (by simp)
  | some head =>
    have hsome : (readHead .plain g (linesOf .plain stream)).isSome = true := by
      rw [readHead_plain hread]
      rfl
    rw [and_iff_right hsome]
    by_cases h0 : headers.keys = []
    · rw [relayedMarked_of_keys_nil h0, forwards_iff hread]
      exact iff_of_true ⟨head, hread, emitsOnce_of_keys_nil hmerge h0 head⟩
        (Or.inl (hmerge.keys_eq_nil_iff.mp h0))
    · rw [← hmerge.keys_eq_nil_iff, or_iff_right h0]
      have hiff := emitsOnce_iff hmerge h0 hsome []
      rw [show clientBytes [] = [] from rfl, List.append_nil] at hiff
      unfold relayedMarked
      cases hpos : findWindow crlfCrlf stream with
      | none =>
        have hsame : finalBuf .marked headers (clientBytes stream) = clientBytes stream := by
          unfold finalBuf
          rw [map_val_clientBytes, hpos]
        rw [hsame] at hiff
        rw [hiff]
        simp
      | some pos =>
        dsimp only
        split_ifs with hfits
        · rw [hiff]
          simp [hfits]
        · refine iff_of_false (not_emitsOnce_of_same hmerge h0 hread) fun h => ?_
          exact hfits (h.1 pos rfl)

/-- The marks are those of the bytes that are relayed. -/
theorem relayed_eq (headers : HashMap Str Str) (maxBuf : ℕ) (stream : Bytes) :
    relayed (sortedHeaders headers) maxBuf stream =
      (relayedMarked headers maxBuf stream).map Carrier.marked.val := by
  rw [relayed_eq_rewriteHead]
  unfold relayedMarked
  cases hpos : findWindow crlfCrlf stream with
  | none => exact (map_val_clientBytes stream).symm
  | some pos =>
    dsimp only
    split_ifs
    · rw [← finalBuf_plain_eq, finalBuf_eq hpos]
      exact rewriteHead_congr (fun _ => mem_map_sortedHeaders_iff) _ _ _
    · exact (map_val_clientBytes stream).symm

end Emits

/-! ### Runs -/

section Runs

variable {tr : Trace} {stream : Bytes}

/-- What the whole relay of a response writes, with any headers. -/
theorem written_of_relay {headers : HashMap Str Str} {maxBuf : ℕ} (hmax : 0 < maxBuf)
    {r : Except Unit Unit}
    (h : Completes (relayUpstreamResponse (sortedHeaders headers) maxBuf) tr r)
    (hs : Delivers upstreamTaking stream tr) (hw : false ∉ outputResults tr) :
    written tr = (relayedMarked headers maxBuf stream).map Carrier.marked.val := by
  rw [← relayed_eq]
  by_cases hnil : sortedHeaders headers = []
  · rw [hnil] at h ⊢
    obtain ⟨copied, -, rfl⟩ := completes_copyBidirectional.mp h
    obtain ⟨rfl, -⟩ := delivers_copyBidirectional_iff.mp hs
    rw [relayed_nil]
    exact List.append_nil _
  · exact written_relayUpstreamResponse hnil hmax h hs hw

theorem SameUpToTimers.delivers {tr' : Trace} (h : SameUpToTimers tr tr')
    (hs : Delivers upstreamTaking stream tr) : Delivers upstreamTaking stream tr' := by
  rw [← delivers_filter_iff] at hs ⊢
  rwa [← h _ fun _ => rfl]

theorem SameUpToTimers.written {tr' : Trace} (h : SameUpToTimers tr tr') :
    written tr = written tr' := by
  rw [← written_outputs, h.outputs, written_outputs]

theorem SameUpToTimers.outputResults {tr' : Trace} (h : SameUpToTimers tr tr') :
    outputResults tr = outputResults tr' := by
  rw [← outputResults_outputs, h.outputs, outputResults_outputs]

/-- What a run of the proxy writes of the response, until a timer fires. -/
theorem written_of_proxyRequest {ctx : Context} {request : Request} {data : Bytes}
    {r : Except Unit Unit} (hmax : 0 < ctx.cfg.maxBuf)
    (h : Completes (ctx.proxyRequest request) (⟨.writeUpstream data, .ok ()⟩ :: tr) r)
    (hs : Delivers upstreamTaking stream tr) (hw : false ∉ outputResults tr) :
    let sent := relayedMarked (responseMap ctx.cfg request.headersConfig) ctx.cfg.maxBuf stream
    written tr <+: sent.map Prod.fst ∧ (Quiet tr → written tr = sent.map Prod.fst) := by
  obtain ⟨tr', q, hreach, hsame, hquiet⟩ := relay_of_proxyRequest h
  have hs' := hsame.delivers hs
  rw [hsame.outputResults] at hw
  rw [hsame.written]
  refine ⟨written_front (fun _ _ => written_of_relay hmax) hreach hs' hw, ?_⟩
  intro hq
  obtain ⟨a, rfl⟩ := hquiet hq
  exact written_of_relay hmax (reaches_end_iff.mp hreach) hs' hw

/-- What a run writes of the response, until a timer fires. -/
theorem written_of_processRequestInner {ctx : Context} {request : Request} {data : Bytes}
    {r : Except Unit Unit} (h : Completes ctx.processRequestInner tr r)
    (hw : (⟨.writeUpstream data, .ok ()⟩ : Event Op Op.Answer) ∈ tr)
    (hacc : ctx.accepted (delivered tr) = some request) (hok : false ∉ outputResults tr)
    (hs : Delivers upstreamTaking stream tr) :
    let sent := relayedMarked (responseMap ctx.cfg request.headersConfig) ctx.cfg.maxBuf stream
    written tr <+: sent.map Prod.fst ∧ (Quiet tr → written tr = sent.map Prod.fst) := by
  obtain ⟨request', tr₁, tr₂, rfl, hops, hout, hproxy, hacc', hmax⟩ :=
    exists_proxyRequest_of_writeUpstream h hw
  obtain rfl := Option.some.inj (hacc.symm.trans hacc')
  obtain ⟨res', tr₃, rfl, hrelay⟩ := proxyRequest_cases hproxy
  have hskip : ∀ ev ∈ tr₁, upstreamTaking ev = none := by
    rintro ⟨op, answer⟩ hev
    rcases hops _ hev with hop | ⟨port, hop⟩
    · cases op <;> first | rfl | exact absurd hop (by simp [Op.isRequestOp])
    · obtain rfl : op = .connect port := hop
      rfl
  have hres : res' = .ok () := by
    rcases List.mem_append.mp hw with hmem | hmem
    · rcases hops _ hmem with hop | ⟨port, hop⟩ <;> exact absurd hop (by simp [Op.isRequestOp])
    · rcases List.mem_cons.mp hmem with heq | hmem
      · cases heq
        rfl
      · exact absurd (hrelay _ hmem) (by simp [Op.isRelayOp])
  subst hres
  have hnil : written tr₁ = [] := by
    rw [← written_outputs, hout]
    rfl
  have hs' := delivers_append_skip_iff hskip |>.mp hs
  rw [delivers_cons_skip_iff rfl] at hs'
  rw [outputResults_append, List.mem_append, not_or] at hok
  obtain ⟨hfront, hall⟩ := written_of_proxyRequest hmax hproxy hs' hok.2
  rw [written_append, hnil]
  refine ⟨hfront, ?_⟩
  intro hq
  exact hall fun fired hmem => hq fired (by simp [hmem])

theorem keys_upstreamHeaders_ne_nil (cfg : ScetyConfig) (headersConfig : Option HeadersConfig)
    (clientIp : Str) : (upstreamHeaders cfg headersConfig clientIp).keys ≠ [] :=
  List.ne_nil_of_mem (AList.mem_keys.mp ((AList.mem_insert _).mpr (Or.inl rfl)))

end Runs

/-- **Configured headers**: in every run that writes a request to the upstream, the configured
headers are emitted once in the head forwarded, and once in the head of the response relayed, if and
only if no two of the names configured for it differ in letter case only, and the lines are fields
that are added at the end of the head. -/
theorem configured_once_iff {ctx : Context} {g g' : HeadGrammar}
    (hparse : ∀ data headers, ctx.parse data = .complete headers →
      (readHead .plain g (linesOf .plain data)).isSome = true)
    {tr : Trace} {r : Except Unit Unit} (h : Completes ctx.processRequestInner tr r)
    {data : Bytes} {res : Except Unit Unit}
    (hw : (⟨.writeUpstream data, res⟩ : Event Op Op.Answer) ∈ tr) :
    ∃ headersConfig,
      (ctx.accepted (delivered tr)).map Request.headersConfig = some headersConfig ∧
      (let layers := upstreamLayers ctx.cfg headersConfig ctx.clientIp
       let received := clientBytes (delivered tr)
       let sent := finalBuf .marked (upstreamHeaders ctx.cfg headersConfig ctx.clientIp) received
       data = sent.map Prod.fst ∧
        ∀ more, Forwards g (EmitsOnce layers more) received (sent ++ clientBytes more) ↔
          EmitsAtHeadEnd g layers (delivered tr)) ∧
      (let layers := responseLayers ctx.cfg headersConfig
       ∀ stream, res = .ok () → false ∉ outputResults tr → Delivers upstreamTaking stream tr →
        let sent := relayedMarked (responseMap ctx.cfg headersConfig) ctx.cfg.maxBuf stream
        written tr <+: sent.map Prod.fst ∧ (Quiet tr → written tr = sent.map Prod.fst) ∧
          (Forwards g' (EmitsOnce layers []) (clientBytes stream) sent ↔
            RelaysOnce g' layers ctx.cfg.maxBuf stream)) := by
  obtain ⟨request, hacc, rfl⟩ := exists_accepted_of_writeUpstream h hw
  refine ⟨request.headersConfig, ?_, ⟨?_, ?_⟩, ?_⟩
  · rw [hacc]
    rfl
  · exact finalBuf_plain_eq _ _
  · exact emitsOnce_iff (isMerge_upstreamHeaders _ _ _) (keys_upstreamHeaders_ne_nil _ _ _)
      (isSome_readHead_of_accepted hparse hacc)
  · rintro layers stream rfl hok hs
    obtain ⟨hfront, hall⟩ := written_of_processRequestInner h hw hacc hok hs
    exact ⟨hfront, hall, emitsOnce_relayed_iff (isMerge_extendHeaders _ _) _ _⟩

/-- A header that is set for all services, and its value for one of them. -/
def globalHeader : HashMap Str Str := AList.singleton "X-A".toList "1".toList

def serviceHeader (name : Str) : HeadersConfig :=
  ⟨some (AList.singleton name "2".toList), none⟩

theorem emitsAtHeadEnd_crlfRequest :
    EmitsAtHeadEnd plainGrammar (upstreamLayers (headersContext globalHeader ∅ none).cfg
      (some (serviceHeader "X-A".toList)) proxyContext.clientIp) crlfRequest := by
  have hkeys : ∀ layer ∈ upstreamLayers (headersContext globalHeader ∅ none).cfg
      (some (serviceHeader "X-A".toList)) proxyContext.clientIp, ∀ name ∈ layer.keys,
        name = xffName ∨ name = "X-A".toList := by decide
  have hhead : (readHead .plain plainGrammar (linesOf .plain crlfRequest)).map
      (fun h => (h.request, h.rest)) = some (bytes "GET / HTTP/1.1".toList, []) := by decide
  refine ⟨endsAtCrlf_crlfRequest.headEnd, ?_, ?_, ?_⟩
  · intro head h layer hlayer name hname
    rw [h] at hhead
    rw [(Prod.mk.inj (Option.some.inj hhead)).1]
    rcases hkeys layer hlayer name hname with rfl | rfl <;> decide
  · intro layer hlayer layer' hlayer' a ha b hb hsame
    rcases hkeys layer hlayer a ha with rfl | rfl <;>
      rcases hkeys layer' hlayer' b hb with rfl | rfl
    · rfl
    · exact absurd hsame (by unfold SameName; decide)
    · exact absurd hsame (by unfold SameName; decide)
    · rfl
  · intro key value h
    obtain ⟨layer, hlayer, hvalue⟩ := List.exists_of_findSome?_eq_some h
    rcases hkeys layer hlayer key (mem_keys_of_lookup hvalue) with rfl | rfl
    · obtain rfl : xffIp proxyContext.clientIp = value := Option.some.inj h
      decide
    · obtain rfl : "2".toList = value := Option.some.inj h
      decide

theorem configured_once_iff_crlf :
    Forwards plainGrammar (EmitsOnce (upstreamLayers (headersContext globalHeader ∅ none).cfg
        (some (serviceHeader "X-A".toList)) proxyContext.clientIp) [])
      (clientBytes crlfRequest) (finalBuf .marked (upstreamHeaders
        (headersContext globalHeader ∅ none).cfg (some (serviceHeader "X-A".toList))
          proxyContext.clientIp) (clientBytes crlfRequest)) := by
  obtain ⟨headersConfig, hacc, ⟨-, hiff⟩, -⟩ := @configured_once_iff
    (headersContext globalHeader ∅ (some (serviceHeader "X-A".toList))) plainGrammar plainGrammar
    parseSpoofing_readHead _ _ (completes_headersContext globalHeader _ rfl crlfRequest (by decide)
      (by decide) rfl) _ _
    (List.mem_cons_of_mem _ (List.mem_cons_of_mem _ (List.mem_cons_of_mem _ List.mem_cons_self)))
  obtain rfl : some (serviceHeader "X-A".toList) = headersConfig := Option.some.inj hacc
  have h := (hiff []).mpr emitsAtHeadEnd_crlfRequest
  rwa [show clientBytes [] = [] from rfl, List.append_nil] at h

/-- A service that writes the name of a global header in another case gets both values sent. -/
theorem configured_twice :
    ¬ ∀ (ctx : Context) (g : HeadGrammar),
      (∀ data headers, ctx.parse data = .complete headers →
        (readHead .plain g (linesOf .plain data)).isSome = true) →
      ∀ (tr : Trace) (r : Except Unit Unit), Completes ctx.processRequestInner tr r →
      ∀ (data : Bytes) (res : Except Unit Unit),
        (⟨.writeUpstream data, res⟩ : Event Op Op.Answer) ∈ tr →
      ∀ headersConfig, (ctx.accepted (delivered tr)).map Request.headersConfig = some headersConfig →
        Forwards g (EmitsOnce (upstreamLayers ctx.cfg headersConfig ctx.clientIp) [])
          (clientBytes (delivered tr)) (finalBuf .marked
            (upstreamHeaders ctx.cfg headersConfig ctx.clientIp) (clientBytes (delivered tr))) := by
  intro hall
  have hforwards := hall (headersContext globalHeader ∅ (some (serviceHeader "x-a".toList)))
    plainGrammar parseSpoofing_readHead _ _
    (completes_headersContext globalHeader _ rfl crlfRequest (by decide) (by decide) rfl) _ _
    (List.mem_cons_of_mem _ (List.mem_cons_of_mem _ (List.mem_cons_of_mem _ List.mem_cons_self)))
    (some (serviceHeader "x-a".toList)) rfl
  have hread : (readHead .plain plainGrammar (linesOf .plain crlfRequest)).isSome = true := by decide
  have hiff := emitsOnce_iff (isMerge_upstreamHeaders
    (headersContext globalHeader ∅ (some (serviceHeader "x-a".toList))).cfg
    (some (serviceHeader "x-a".toList)) proxyContext.clientIp) (keys_upstreamHeaders_ne_nil _ _ _)
    hread []
  rw [show clientBytes [] = [] from rfl, List.append_nil] at hiff
  have hdistinct := (hiff.mp hforwards).emittable.distinct
  have hsame := hdistinct (AList.singleton "x-a".toList "2".toList)
    (by simp [upstreamLayers, serviceHeader])
    globalHeader (by simp [upstreamLayers, headersContext]) "x-a".toList (by decide)
    "X-A".toList (by decide) (by unfold SameName; decide)
  exact absurd hsame (by decide)

end Scety
