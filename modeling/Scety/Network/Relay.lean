import Scety.Lib.Streams
import Scety.Network.RequestRuns

/-!
# `relay_upstream_response` on a stream

What the client gets of the upstream depends on the upstream's bytes and not on how they arrive
(`relay_segmentation`): either the loop finds the first empty line within its bound and rewrites
what it has, or it hands over what it has as it is; the rest is copied.
-/

namespace Scety

open Effects Lines Streams

/-- What an operation takes from the upstream. -/
def upstreamTaking : Event Op Op.Answer → Option (Taking UInt8)
  | ⟨.readUpstream len, .ok n⟩ => some (.piece len n.1)
  | ⟨.readUpstream _, .error _⟩ => some .failed
  | ⟨.copyBidirectional, copied⟩ => some (.rest copied.toClient)
  | _ => none

/-- The upstream's bytes that the event writes to the client. -/
def writtenBy : Event Op Op.Answer → Bytes
  | ⟨.writeClient (.relay data), .ok _⟩ => data
  | ⟨.copyBidirectional, copied⟩ => copied.toClient
  | _ => []

def written (tr : Trace) : Bytes := tr.flatMap writtenBy

/-- The response that the client gets for the response `stream` of the upstream: if the head ends within the
bound, its lines without those that have one of the names, the lines of the headers, and all that follows. -/
def relayed (extraHeaders : List (Str × Str)) (maxBuf : ℕ) (stream : Bytes) : Bytes :=
  match findWindow crlfCrlf stream with
  | some pos =>
    if pos + 4 ≤ maxBuf then
      ((linesOf .plain (stream.take (pos + 2))).filter fun line =>
        !(extraHeaders.map Prod.fst).any fun key => startsWithName line (bytes key)).flatten ++
        extraHeaders.flatMap headerLine ++ stream.drop (pos + 2)
    else stream
  | none => stream

variable {extraHeaders : List (Str × Str)} {maxBuf : ℕ}

/-- That is the head as the program rewrites it. -/
theorem relayed_eq_rewriteHead (extraHeaders : List (Str × Str)) (maxBuf : ℕ) (stream : Bytes) :
    relayed extraHeaders maxBuf stream = match findWindow crlfCrlf stream with
      | some pos =>
        if pos + 4 ≤ maxBuf then
          rewriteHead .plain (extraHeaders.map fun e => bytes e.1) extraHeaders pos stream
        else stream
      | none => stream := by
  have hlines : ∀ pos, rewriteHead .plain (extraHeaders.map fun e => bytes e.1) extraHeaders pos stream =
      ((linesOf .plain (stream.take (pos + 2))).filter fun line =>
        !(extraHeaders.map Prod.fst).any fun key => startsWithName line (bytes key)).flatten ++
        extraHeaders.flatMap headerLine ++ stream.drop (pos + 2) := by
    intro pos
    have hnames : (extraHeaders.map fun e => bytes e.1) = (extraHeaders.map Prod.fst).map bytes := by
      rw [List.map_map]
      rfl
    unfold rewriteHead stripHeadersByName
    rw [hnames, map_plain_own]
    simp only [map_plain_val, isNamedLineOf_eq]
  unfold relayed
  simp only [hlines]

/-! ### The ways out of the loop -/

/-- The head ends in what has been read. -/
theorem relayed_of_found {data : Bytes} {pos : ℕ} (h : findWindow crlfCrlf data = some pos)
    (hfits : data.length ≤ maxBuf) (rest : Bytes) :
    relayed extraHeaders maxBuf (data ++ rest) =
      rewriteHead .plain (extraHeaders.map fun e => bytes e.1) extraHeaders pos data ++ rest := by
  have hpos : pos + 4 ≤ data.length := le_of_findWindow h
  rw [relayed_eq_rewriteHead]
  unfold rewriteHead
  rw [(findWindow_append_iff hpos rest).mpr h]
  dsimp only
  rw [if_pos (hpos.trans hfits), List.take_append_of_le_length (by omega),
    List.drop_append_of_le_length (by omega), List.append_assoc, List.append_assoc,
    List.append_assoc]

/-- No head ends within the bound. -/
theorem relayed_of_full {data : Bytes} (h : findWindow crlfCrlf data = none)
    (hfull : maxBuf ≤ data.length) (rest : Bytes) :
    relayed extraHeaders maxBuf (data ++ rest) = data ++ rest := by
  unfold relayed
  cases hpos : findWindow crlfCrlf (data ++ rest) with
  | none => rfl
  | some pos =>
    apply if_neg
    intro hle
    rw [findWindow_append_iff (show pos + 4 ≤ data.length by omega), h] at hpos
    exact absurd hpos (by simp)

/-- The stream ends before its head does. -/
theorem relayed_of_none {data : Bytes} (h : findWindow crlfCrlf data = none) :
    relayed extraHeaders maxBuf data = data := by
  unfold relayed
  rw [h]

theorem relayed_ne_nil {stream : Bytes} (h : stream ≠ []) :
    relayed extraHeaders maxBuf stream ≠ [] := by
  unfold relayed
  cases hpos : findWindow crlfCrlf stream with
  | none => exact h
  | some pos =>
    have hlen : pos + 4 ≤ stream.length := le_of_findWindow hpos
    dsimp only
    split_ifs
    · refine List.append_ne_nil_of_right_ne_nil _ (List.ne_nil_of_length_pos ?_)
      rw [List.length_drop]
      omega
    · exact h

/-- Without headers the response is relayed as it is. -/
theorem relayed_nil (maxBuf : ℕ) (stream : Bytes) : relayed [] maxBuf stream = stream := by
  unfold relayed
  cases findWindow crlfCrlf stream with
  | none => rfl
  | some pos =>
    dsimp only
    split_ifs
    · exact rewriteHead_nil _ _ _
    · rfl

/-! ### Runs -/

section Runs

variable {tr : Trace} {stream : Bytes}

theorem delivers_readUpstream_iff {len : ℕ} {n : { data : Bytes // data.length ≤ len }} :
    Delivers upstreamTaking stream (⟨.readUpstream len, .ok n⟩ :: tr) ↔
      ∃ rest, stream = n.1 ++ rest ∧ (n.1 = [] → rest = [] ∨ len = 0) ∧
        Delivers upstreamTaking rest tr := delivers_cons_piece_iff rfl

theorem delivers_copyBidirectional_iff {copied : Copied} :
    Delivers upstreamTaking stream (⟨.copyBidirectional, copied⟩ :: tr) ↔
      stream = copied.toClient ∧ Delivers upstreamTaking [] tr := delivers_cons_rest_iff rfl

theorem delivers_writeClient_iff {output : Output} {answer : Except Unit Unit} :
    Delivers upstreamTaking stream (⟨.writeClient output, answer⟩ :: tr) ↔
      Delivers upstreamTaking stream tr := delivers_cons_skip_iff rfl

theorem completes_readUpstream {len : ℕ} {r : Except Unit { data : Bytes // data.length ≤ len }} :
    Completes (readUpstream len) tr r ↔ tr = [⟨.readUpstream len, r⟩] := runs_op_iff

theorem completes_copyBidirectional {r : Except Unit Unit} :
    Completes copyBidirectional tr r ↔
      ∃ copied : Copied, r = copied.result ∧ tr = [⟨.copyBidirectional, copied⟩] := by
  refine runs_map_iff.trans ?_
  exact exists_congr fun copied => and_congr_right fun _ => runs_op_iff

theorem writtenBy_eq_nil {ev : Event Op Op.Answer} (h : ev.1.isOutput = false) :
    writtenBy ev = [] := by
  obtain ⟨op, answer⟩ := ev
  cases op <;> first | rfl | exact absurd h (by simp [Op.isOutput])

@[simp] theorem written_append {tr₁ tr₂ : Trace} :
    written (tr₁ ++ tr₂) = written tr₁ ++ written tr₂ := List.flatMap_append

/-- The outputs of a run decide what is written. -/
theorem written_outputs : written (outputs tr) = written tr :=
  flatMap_filter_kept fun _ => writtenBy_eq_nil

/-- A write that gets through, then the copy. -/
theorem written_of_copy {data : Bytes} {r : Except Unit Unit}
    (h : Completes (do writeClient (.relay data); copyBidirectional) tr r)
    (hs : Delivers upstreamTaking stream tr) (hw : false ∉ outputResults tr) :
    written tr = data ++ stream := by
  rcases completes_bind_iff.mp h with ⟨e, hwrite, rfl⟩ | ⟨a, tr₁, tr₂, rfl, hwrite, hcopy⟩
  · obtain rfl := completes_writeClient.mp hwrite
    exact absurd List.mem_cons_self hw
  · obtain rfl := completes_writeClient.mp hwrite
    obtain ⟨copied, -, rfl⟩ := completes_copyBidirectional.mp hcopy
    obtain ⟨rfl, -⟩ := delivers_copyBidirectional_iff.mp (delivers_writeClient_iff.mp hs)
    exact congrArg (data ++ ·) (List.append_nil _)

/-- What one turn of the loop does. -/
theorem relayLoop_cases {buf : ReadBuffer maxBuf} {r : Except Unit Unit}
    (h : Completes (relayLoop extraHeaders buf) tr r) :
    (tr = [⟨.readUpstream buf.free, .error ()⟩] ∧ r = .error ()) ∨
    ∃ n tr', tr = ⟨.readUpstream buf.free, .ok n⟩ :: tr' ∧
      ((n.1 = [] ∧ Completes (writeClient (.relay buf.data)) tr' r) ∨
        (∃ pos, findWindow crlfCrlf (buf.push n).data = some pos ∧
          Completes (do
            writeClient (.relay (rewriteHead .plain (extraHeaders.map fun e => bytes e.1)
              extraHeaders pos (buf.push n).data))
            copyBidirectional) tr' r) ∨
        (findWindow crlfCrlf (buf.push n).data = none ∧ (buf.push n).isFull = true ∧
          Completes (do writeClient (.relay (buf.push n).data); copyBidirectional) tr' r) ∨
        (n.1 ≠ [] ∧ findWindow crlfCrlf (buf.push n).data = none ∧
          ¬ (buf.push n).isFull = true ∧
          Completes (relayLoop extraHeaders (buf.push n).growIfFull) tr' r)) := by
  rw [relayLoop] at h
  rcases completes_bind_iff.mp h with ⟨e, hread, rfl⟩ | ⟨n, tr₁, tr', rfl, hread, hrest⟩
  · exact Or.inl ⟨completes_readUpstream.mp hread, rfl⟩
  obtain rfl := completes_readUpstream.mp hread
  refine Or.inr ⟨n, tr', rfl, ?_⟩
  by_cases hn : n.1 = []
  · rw [dif_pos hn] at hrest
    exact Or.inl ⟨hn, hrest⟩
  · rw [dif_neg hn] at hrest
    right
    cases hpos : findWindow crlfCrlf (buf.push n).data with
    | some pos =>
      rw [hpos] at hrest
      exact Or.inl ⟨pos, rfl, hrest⟩
    | none =>
      rw [hpos] at hrest
      dsimp only at hrest
      by_cases hfull : (buf.push n).isFull = true
      · rw [if_pos hfull] at hrest
        exact Or.inr (Or.inl ⟨rfl, hfull, hrest⟩)
      · rw [if_neg hfull] at hrest
        exact Or.inr (Or.inr ⟨hn, rfl, hfull, hrest⟩)

/-- The loop writes and copies what is to be written of all bytes, those in the buffer first. -/
theorem written_relayLoop {buf : ReadBuffer maxBuf} (hroom : 0 < buf.free)
    (hbuf : findWindow crlfCrlf buf.data = none) {r : Except Unit Unit}
    (h : Completes (relayLoop extraHeaders buf) tr r) (hs : Delivers upstreamTaking stream tr)
    (hw : false ∉ outputResults tr) :
    written tr = relayed extraHeaders maxBuf (buf.data ++ stream) := by
  induction buf using relayLoop.induct generalizing tr stream with
  | case1 buf ih =>
    rcases relayLoop_cases h with ⟨rfl, rfl⟩ | ⟨n, tr', rfl, hcases⟩
    · exact absurd hs (not_delivers_cons_failed rfl)
    obtain ⟨rest, rfl, hend, hrest⟩ := delivers_readUpstream_iff.mp hs
    have hw' : false ∉ outputResults tr' := hw
    have hfits : (buf.push n).data.length ≤ maxBuf :=
      (buf.push n).data_le.trans (buf.push n).len_le
    show written tr' = _
    rcases hcases with ⟨hn, hwrite⟩ | ⟨pos, hpos, hcopy⟩ | ⟨hnone, hfull, hcopy⟩ |
      ⟨hn, hnone, hfull, hloop⟩
    · obtain rfl : rest = [] := (hend hn).resolve_right (by omega)
      obtain rfl := completes_writeClient.mp hwrite
      rw [hn, List.append_nil, List.append_nil, relayed_of_none hbuf]
      cases r with
      | error e => exact absurd List.mem_cons_self hw'
      | ok u => exact List.append_nil _
    · rw [written_of_copy hcopy hrest hw', ← List.append_assoc, ← ReadBuffer.data_push,
        relayed_of_found hpos hfits]
    · rw [written_of_copy hcopy hrest hw', ← List.append_assoc, ← ReadBuffer.data_push,
        relayed_of_full hnone ((ReadBuffer.isFull_iff _).mp hfull)]
    · have hwritten := ih n hn (ReadBuffer.free_growIfFull (buf.push_ne_nil hn) hfull)
        (by rw [ReadBuffer.data_growIfFull, hnone]) hloop hrest hw'
      rw [hwritten, ReadBuffer.data_growIfFull, ReadBuffer.data_push, List.append_assoc]

theorem written_relayUpstreamResponse (hextra : extraHeaders ≠ []) (hmax : 0 < maxBuf)
    {r : Except Unit Unit} (h : Completes (relayUpstreamResponse extraHeaders maxBuf) tr r)
    (hs : Delivers upstreamTaking stream tr) (hw : false ∉ outputResults tr) :
    written tr = relayed extraHeaders maxBuf stream := by
  unfold relayUpstreamResponse at h
  rw [if_neg hextra] at h
  exact written_relayLoop (ReadBuffer.free_empty hmax) rfl h hs hw

/-- Whatever a program still does, the upstream can go on with its stream and the client can take
all that is written. -/
theorem exists_run_delivering {α : Type} (p : Prog Op Op.Answer α) (stream : Bytes) :
    ∃ tr a, Runs p tr a ∧ Delivers upstreamTaking stream tr ∧ false ∉ outputResults tr := by
  induction p generalizing stream with
  | pure a => exact ⟨[], a, .pure a, .stop stream, by simp [outputResults]⟩
  | perform op k ih =>
    have hskip : ∀ answer : op.Answer, upstreamTaking ⟨op, answer⟩ = none →
        outputResult ⟨op, answer⟩ ≠ some false →
        ∃ tr a, Runs (.perform op k) tr a ∧ Delivers upstreamTaking stream tr ∧
          false ∉ outputResults tr := by
      intro answer hnone hok
      obtain ⟨tr, a, hrun, hs, hw⟩ := ih answer stream
      refine ⟨⟨op, answer⟩ :: tr, a, .perform answer hrun, .skip hnone hs, ?_⟩
      simp only [outputResults, List.mem_filterMap, not_exists, not_and] at hw ⊢
      exact List.forall_mem_cons.mpr ⟨hok, hw⟩
    cases op with
    | timerFires => exact hskip false rfl (by simp [outputResult])
    | readClient len => exact hskip (.ok ⟨[], Nat.zero_le _⟩) rfl (by simp [outputResult])
    | writeClient output => exact hskip (.ok ()) rfl (by simp [outputResult])
    | flushClient => exact hskip (.ok ()) rfl (by simp [outputResult])
    | connect port => exact hskip (.ok ()) rfl (by simp [outputResult])
    | writeUpstream data => exact hskip (.ok ()) rfl (by simp [outputResult])
    | readUpstream len =>
      obtain ⟨tr, a, hrun, hs, hw⟩ :=
        ih (.ok ⟨stream.take len, List.length_take_le _ _⟩) (stream.drop len)
      refine ⟨_, a, .perform _ hrun, ?_, hw⟩
      refine delivers_readUpstream_iff.mpr ⟨_, (List.take_append_drop len stream).symm, ?_, hs⟩
      intro hnil
      rcases List.take_eq_nil_iff.mp hnil with hlen | hstream
      · exact Or.inr hlen
      · exact Or.inl (by rw [hstream, List.drop_nil])
    | copyBidirectional =>
      obtain ⟨tr, a, hrun, hs, hw⟩ := ih ⟨stream, [], .ok ()⟩ []
      exact ⟨_, a, .perform _ hrun, delivers_copyBidirectional_iff.mpr ⟨rfl, hs⟩, hw⟩

/-- If what all complete runs write is the same, then what a run has written is the front of it. -/
theorem written_front {α : Type} {p q : Prog Op Op.Answer α} {all : Bytes}
    (hall : ∀ tr a, Runs p tr a → Delivers upstreamTaking stream tr → false ∉ outputResults tr →
      written tr = all)
    (hrun : Reaches p tr q) (hs : Delivers upstreamTaking stream tr)
    (hw : false ∉ outputResults tr) : written tr <+: all := by
  obtain ⟨rest, hrest⟩ := hs.exists_rest
  obtain ⟨tr', a, hrun', hs', hw'⟩ := exists_run_delivering q rest
  rw [← hall _ _ (hrun.runs_append hrun') (hrest _ hs')
    (by rw [outputResults_append, List.mem_append, not_or]; exact ⟨hw, hw'⟩)]
  exact ⟨written tr', written_append.symm⟩

/-- **Relaying a response** in any segmentation: what has been written to the client is at any time
the front of the response of the upstream, with the configured lines in its head if that ends within
the bound; and in the end it is all of it. -/
theorem relay_segmentation (hextra : extraHeaders ≠ []) (hmax : 1 ≤ maxBuf)
    {p : Prog Op Op.Answer (Except Unit Unit)}
    (hrun : Reaches (relayUpstreamResponse extraHeaders maxBuf).run tr p)
    (hs : Delivers upstreamTaking stream tr) (hw : false ∉ outputResults tr) :
    written tr <+: relayed extraHeaders maxBuf stream ∧
      ∀ r, p = .pure r → written tr = relayed extraHeaders maxBuf stream := by
  refine ⟨?_, ?_⟩
  · exact written_front (fun _ _ => written_relayUpstreamResponse hextra hmax) hrun hs hw
  · rintro r rfl
    exact written_relayUpstreamResponse hextra hmax (reaches_end_iff.mp hrun) hs hw

end Runs

/-- A response whose empty line is split over two reads, and a byte that is copied. -/
def splitEvents : Trace :=
  [⟨.readUpstream 16, .ok ⟨bytes "A\r\n\r".toList, by decide⟩⟩,
    ⟨.readUpstream 12, .ok ⟨bytes "\nB".toList, by decide⟩⟩,
    ⟨.writeClient (.relay (bytes "A\r\nX: 1\r\n\r\nB".toList)), .ok ()⟩,
    ⟨.copyBidirectional, ⟨bytes "C".toList, [], .ok ()⟩⟩]

theorem completes_splitEvents :
    Completes (relayUpstreamResponse [("X".toList, "1".toList)] 16) splitEvents (.ok ()) := by
  unfold relayUpstreamResponse
  rw [if_neg (by decide), relayLoop]
  refine completes_bind_iff.mpr (Or.inr ⟨_, [_], _, rfl, completes_readUpstream.mpr rfl, ?_⟩)
  show Completes (relayLoop _ _) _ _
  rw [relayLoop]
  refine completes_bind_iff.mpr (Or.inr ⟨_, [_], _, rfl, completes_readUpstream.mpr rfl, ?_⟩)
  refine completes_bind_iff.mpr (Or.inr ⟨(), [_], _, rfl, completes_writeClient.mpr rfl, ?_⟩)
  exact completes_copyBidirectional.mpr ⟨_, rfl, rfl⟩

theorem delivers_splitEvents :
    Delivers upstreamTaking (bytes "A\r\n\r\nBC".toList) splitEvents := by
  refine delivers_readUpstream_iff.mpr ⟨bytes "\nBC".toList, rfl, by decide, ?_⟩
  refine delivers_readUpstream_iff.mpr ⟨bytes "C".toList, rfl, by decide, ?_⟩
  refine delivers_writeClient_iff.mpr (delivers_copyBidirectional_iff.mpr ⟨rfl, .stop []⟩)

theorem relay_segmentation_split :
    written splitEvents = bytes "A\r\nX: 1\r\n\r\nBC".toList :=
  ((relay_segmentation (by decide) (by decide) (reaches_end_iff.mpr completes_splitEvents)
    delivers_splitEvents (by decide)).2 _ rfl).trans (by decide)

end Scety
