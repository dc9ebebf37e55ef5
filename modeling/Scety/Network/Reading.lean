import Scety.Lib.Streams
import Scety.Network.Responses

/-!
# `read_request` on a stream

What `read_request` decides depends on the bytes of the client and not on how they arrive
(`readRequest_segmentation`).  The loop keeps room in its buffer, so that a read of nothing is the
end of the stream; and it stops at the first decided prefix, on which `httparse` agrees with every
longer one.
-/

namespace Scety

open Effects Lines Streams

/-- What an operation takes from the client. -/
def clientTaking : Event Op Op.Answer → Option (Taking UInt8)
  | ⟨.readClient len, .ok n⟩ => some (.piece len n.1)
  | ⟨.readClient _, .error _⟩ => some .failed
  | _ => none

theorem delivers_read_iff {stream : Bytes} {len : ℕ} {n : { data : Bytes // data.length ≤ len }}
    {tr : Trace} : Delivers clientTaking stream (⟨.readClient len, .ok n⟩ :: tr) ↔
      ∃ rest, stream = n.1 ++ rest ∧ (n.1 = [] → rest = [] ∨ len = 0) ∧
        Delivers clientTaking rest tr := delivers_cons_piece_iff rfl

theorem delivered_front {stream : Bytes} {tr : Trace} (h : Delivers clientTaking stream tr) :
    delivered tr <+: stream := by
  have hdata : ∀ ev : Event Op Op.Answer,
      deliveredBy ev = ((clientTaking ev).map Taking.data).getD [] := by
    rintro ⟨op, answer⟩
    cases op with
    | readClient len => cases answer <;> rfl
    | _ => rfl
  unfold delivered
  rw [funext hdata]
  exact h.front

/-- A decided prefix is decided for good, which is how `httparse` reads. -/
def Stable (parse : Bytes → ParseResult) : Prop :=
  ∀ data more, parse data ≠ .incomplete → parse (data ++ more) = parse data

theorem Stable.of_front {parse : Bytes → ParseResult} (h : Stable parse) {data data' : Bytes}
    (hdecided : parse data ≠ .incomplete) (hfront : data <+: data') : parse data' = parse data := by
  obtain ⟨more, rfl⟩ := hfront
  exact h data more hdecided

/-- What reading a request decides. -/
inductive Decision where
  | page (code : ℕ)
  | unmatched
  | accepted (targetPort : Option UInt16) (headersConfig : Option HeadersConfig) (isWs : Bool)

/-- A decision and how it shows: the request is rejected with a page, which may fail to get through,
or nothing is written. -/
inductive Decided (data : Bytes) : Decision → Trace → Except Unit (Option Request) → Prop where
  | page {code : ℕ} {out : Trace} : IsSend code out (.ok ()) →
      Decided data (.page code) out (.ok none)
  | unsent {code : ℕ} {out : Trace} : IsSend code out (.error ()) →
      Decided data (.page code) out (.error ())
  | unmatched : Decided data .unmatched [] (.ok none)
  | accepted {targetPort : Option UInt16} {headersConfig : Option HeadersConfig} {isWs : Bool} :
      Decided data (.accepted targetPort headersConfig isWs) []
        (.ok (some ⟨data, targetPort, headersConfig, isWs⟩))

namespace Context

variable (ctx : Context)

/-- The decision on a complete head. -/
def decideHeaders (headers : List Header) : Decision :=
  match validateFramingHeaders headers with
  | .error _ => .page 400
  | .ok () =>
    match requestHost headers with
    | some host =>
      if ctx.cfg.hostExceedsLabelLimit host then .page 423
      else
        match ctx.find host with
        | some target =>
          .accepted (target.upstream.bind (·.port)) target.headers (isWebsocketUpgrade headers)
        | none => .unmatched
    | none => .unmatched

/-- The decision on all bytes of a client: only those that fit into the buffer matter. -/
def decision (stream : Bytes) : Decision :=
  if stream = [] then .unmatched
  else
    match ctx.parse (stream.take ctx.cfg.maxBuf) with
    | .complete headers => ctx.decideHeaders headers
    | .incomplete => if ctx.cfg.maxBuf ≤ stream.length then .page 431 else .unmatched
    | .error => .unmatched

variable {ctx}

/-! ### The branches of a decided head -/

theorem decided_of_send {data : Bytes} {code : ℕ} {tr : Trace}
    {r : Except Unit (Option Request)}
    (h : Completes (do send code ctx.exposeVersion; return none) tr r) :
    Decided data (.page code) (outputs tr) r ∧ delivered tr = [] := by
  rcases completes_reject h with ⟨hsend, rfl⟩ | ⟨hsend, rfl⟩
  · rw [hsend.outputs]
    exact ⟨.unsent hsend, hsend.delivered⟩
  · rw [hsend.outputs]
    exact ⟨.page hsend, hsend.delivered⟩

theorem decided_completeRequest {data : Bytes} {headers : List Header} {tr : Trace}
    {r : Except Unit (Option Request)} (h : Completes (ctx.completeRequest data headers) tr r) :
    Decided data (ctx.decideHeaders headers) (outputs tr) r := by
  unfold completeRequest at h
  unfold decideHeaders
  cases hframing : validateFramingHeaders headers with
  | error reason =>
    rw [hframing] at h
    exact (decided_of_send h).1
  | ok u =>
    rw [hframing] at h
    dsimp only at h ⊢
    cases hhost : requestHost headers with
    | none =>
      rw [hhost] at h
      obtain ⟨rfl, rfl⟩ := completes_pure_iff.mp h
      exact .unmatched
    | some host =>
      rw [hhost] at h
      dsimp only at h ⊢
      by_cases hlimit : ctx.cfg.hostExceedsLabelLimit host = true
      · rw [if_pos hlimit] at h ⊢
        exact (decided_of_send h).1
      · rw [if_neg hlimit] at h ⊢
        cases hfind : ctx.find host with
        | none =>
          rw [hfind] at h
          obtain ⟨rfl, rfl⟩ := completes_pure_iff.mp h
          exact .unmatched
        | some target =>
          rw [hfind] at h
          obtain ⟨rfl, rfl⟩ := completes_pure_iff.mp h
          exact .accepted

/-! ### The bounds of the loop -/

/-- What follows a read in one turn of the loop. -/
def afterRead (ctx : Context) (buf : ReadBuffer ctx.cfg.maxBuf)
    (n : { data : Bytes // data.length ≤ buf.free }) : Io (Option Request) :=
  if n.1 = [] then
    return none
  else
    match ctx.parse (buf.push n).data with
    | .complete headers => ctx.completeRequest (buf.push n).data headers
    | .incomplete =>
      if (buf.push n).isFull then do
        send 431 ctx.exposeVersion
        return none
      else
        ctx.readLoop (buf.push n).growIfFull
    | .error => return none

theorem readLoop_eq (buf : ReadBuffer ctx.cfg.maxBuf) :
    ctx.readLoop buf = readClient buf.free >>= ctx.afterRead buf := by
  rw [readLoop]
  rfl

/-- Where an unfinished turn stands: before the read, at its error, or after it. -/
theorem reaches_readLoop_cases {buf : ReadBuffer ctx.cfg.maxBuf} {tr : Trace}
    {p : Prog Op Op.Answer (Except Unit (Option Request))}
    (h : Reaches (ctx.readLoop buf).run tr p) :
    (tr = [] ∧ ∃ k, p = .perform (.readClient buf.free) k) ∨
      (tr = [⟨.readClient buf.free, .error ()⟩] ∧ p = .pure (.error ())) ∨
        ∃ n tr', tr = ⟨.readClient buf.free, .ok n⟩ :: tr' ∧
          Reaches (ctx.afterRead buf n).run tr' p := by
  rw [readLoop_eq] at h
  rcases reaches_perform_iff.mp h with ⟨rfl, rfl⟩ | ⟨answer, tr', rfl, h'⟩
  · exact Or.inl ⟨rfl, _, rfl⟩
  · right
    cases answer with
    | error e =>
      obtain ⟨rfl, rfl⟩ := reaches_pure_iff.mp h'
      exact Or.inl ⟨rfl, rfl⟩
    | ok n => exact Or.inr ⟨n, tr', rfl, h'⟩

theorem only_send_output (code : ℕ) (exposeVersion : Bool) :
    Only (·.isClientRead = false) (send code exposeVersion).run :=
  only_bind_run (only_op rfl) fun _ => only_op rfl

/-- The slice of each read is not empty and stays within the bound. -/
theorem reaches_readLoop_read {buf : ReadBuffer ctx.cfg.maxBuf} (hroom : 0 < buf.free) {tr : Trace}
    {len : ℕ} {k : Op.Answer (.readClient len) → Prog Op Op.Answer (Except Unit (Option Request))}
    (h : Reaches (ctx.readLoop buf).run tr (.perform (.readClient len) k)) :
    0 < len ∧ (buf.data ++ delivered tr).length + len ≤ ctx.cfg.maxBuf := by
  have hnot : ∀ {p : Prog Op Op.Answer (Except Unit (Option Request))} {tr : Trace},
      Only (·.isClientRead = false) p → ¬ Reaches p tr (.perform (.readClient len) k) :=
    fun honly hr => absurd (honly.of_reaches hr).1 (by simp [Op.isClientRead])
  induction buf using Context.readLoop.induct generalizing tr with
  | case1 buf ih =>
    rcases reaches_readLoop_cases h with ⟨rfl, k', hp⟩ | ⟨rfl, hp⟩ | ⟨n, tr', rfl, h'⟩
    · have hlen : len = buf.free := by
        injection hp with hop
        exact Op.readClient.inj hop
      have hdata := buf.data_le
      have hle := buf.len_le
      refine ⟨hlen ▸ hroom, ?_⟩
      rw [show delivered [] = [] from rfl, List.append_nil, hlen]
      unfold ReadBuffer.free
      omega
    · exact absurd hp (by simp)
    · unfold afterRead at h'
      by_cases hn : n.1 = []
      · rw [if_pos hn] at h'
        exact absurd h' (hnot trivial)
      · rw [if_neg hn] at h'
        rw [delivered_cons_read, ← List.append_assoc, ← ReadBuffer.data_push]
        cases hparse : ctx.parse (buf.push n).data with
        | complete headers =>
          rw [hparse] at h'
          exact absurd h' (hnot (only_completeRequest (fun code => only_send_output code _) _ _))
        | incomplete =>
          rw [hparse] at h'
          dsimp only at h'
          by_cases hfull : (buf.push n).isFull = true
          · rw [if_pos hfull] at h'
            exact absurd h' (hnot (only_bind_run (only_send_output 431 _) fun _ => trivial))
          · rw [if_neg hfull] at h'
            have hread := ih n hn (ReadBuffer.free_growIfFull (buf.push_ne_nil hn) hfull) h'
            rwa [ReadBuffer.data_growIfFull] at hread
        | error =>
          rw [hparse] at h'
          exact absurd h' (hnot trivial)

/-- The loop performs as many reads as there is room for bytes, and sends at most one page. -/
theorem atMost_readLoop {counts : Op → Bool} {m : ℕ}
    (hsend : ∀ code, AtMost counts (send code ctx.exposeVersion).run m)
    {buf : ReadBuffer ctx.cfg.maxBuf} (hroom : 0 < buf.free) :
    AtMost counts (ctx.readLoop buf).run (ctx.cfg.maxBuf - buf.data.length + m) := by
  have hpage : ∀ code n, AtMost counts
      (do send code ctx.exposeVersion; return none : Io (Option Request)).run (n + m) := by
    intro code n
    have hnone : AtMost counts (pure none : Io (Option Request)).run 0 := trivial
    exact (atMost_bind_run (hsend code) fun _ => hnone).mono (by omega)
  induction buf using Context.readLoop.induct with
  | case1 buf ih =>
    have hdata := buf.data_le
    have hlen := buf.len_le
    have hfree : buf.free = buf.len - buf.data.length := rfl
    rw [readLoop_eq, show ctx.cfg.maxBuf - buf.data.length + m =
      1 + (ctx.cfg.maxBuf - buf.data.length - 1 + m) by omega]
    refine atMost_bind_run atMost_op ?_
    intro n
    unfold afterRead
    by_cases hn : n.1 = []
    · rw [if_pos hn]
      trivial
    · rw [if_neg hn]
      cases ctx.parse (buf.push n).data with
      | complete headers =>
        dsimp only
        rcases ctx.completeRequest_cases (buf.push n).data headers with
          ⟨code, -, -, heq⟩ | ⟨request, heq, -⟩
        · rw [heq]
          exact hpage code _
        · rw [heq]
          trivial
      | incomplete =>
        dsimp only
        split_ifs with hfull
        · exact hpage 431 _
        · refine (ih n hn (ReadBuffer.free_growIfFull (buf.push_ne_nil hn) hfull)).mono ?_
          have hmeasure := buf.measure_push hn
          omega
      | error => trivial

/-! ### The decision -/

/-- All bytes that fit agree with a decided prefix that fits. -/
theorem parse_take_of_decided (hparse : Stable ctx.parse) {data rest : Bytes}
    (hdecided : ctx.parse data ≠ .incomplete) (hfits : data.length ≤ ctx.cfg.maxBuf) :
    ctx.parse ((data ++ rest).take ctx.cfg.maxBuf) = ctx.parse data := by
  rw [List.take_append, List.take_of_length_le hfits]
  exact hparse _ _ hdecided

/-- The end of the stream in an undecided head. -/
theorem decision_of_incomplete {data : Bytes} (hdata : data ≠ [] → ctx.parse data = .incomplete)
    (hlt : data.length < ctx.cfg.maxBuf) : ctx.decision data = .unmatched := by
  unfold decision
  by_cases h0 : data = []
  · rw [if_pos h0]
  · rw [if_neg h0, List.take_of_length_le hlt.le, hdata h0]
    exact if_neg (not_le.mpr hlt)

/-- The loop takes the decision on all bytes of the stream. -/
theorem decided_readLoop (hparse : Stable ctx.parse) {buf : ReadBuffer ctx.cfg.maxBuf}
    (hroom : 0 < buf.free) (hbuf : buf.data ≠ [] → ctx.parse buf.data = .incomplete) {tr : Trace}
    {r : Except Unit (Option Request)} (h : Completes (ctx.readLoop buf) tr r) {stream : Bytes}
    (hs : Delivers clientTaking stream tr) :
    Decided (buf.data ++ delivered tr) (ctx.decision (buf.data ++ stream)) (outputs tr) r := by
  induction buf using Context.readLoop.induct generalizing tr stream with
  | case1 buf ih =>
    have hdata := buf.data_le
    have hlen := buf.len_le
    have hfree : buf.free = buf.len - buf.data.length := rfl
    rcases readLoop_cases h with ⟨rfl, rfl⟩ | ⟨n, hn, rfl, rfl⟩ | ⟨n, tr', hn, rfl, hcases⟩
    · exact absurd hs (not_delivers_cons_failed rfl)
    · obtain ⟨rest, rfl, hend, -⟩ := delivers_read_iff.mp hs
      obtain rfl : rest = [] := (hend hn).resolve_right (by omega)
      rw [hn, List.append_nil, List.append_nil, decision_of_incomplete hbuf (by omega)]
      exact .unmatched
    · obtain ⟨rest, rfl, -, hrest⟩ := delivers_read_iff.mp hs
      have h0 := buf.push_ne_nil hn
      have h0' : (buf.push n).data ++ rest ≠ [] := List.append_ne_nil_of_left_ne_nil h0 _
      have hfits : (buf.push n).data.length ≤ ctx.cfg.maxBuf :=
        (buf.push n).data_le.trans (buf.push n).len_le
      rw [delivered_cons_read, ← List.append_assoc, ← List.append_assoc, ← ReadBuffer.data_push]
      show Decided _ _ (outputs tr') r
      rcases hcases with ⟨headers, hhead, hrun⟩ | ⟨hhead, hfull, hrun⟩ | ⟨hhead, hfull, hrun⟩ |
        ⟨hhead, rfl, rfl⟩
      · have hdecision : ctx.decision ((buf.push n).data ++ rest) = ctx.decideHeaders headers := by
          unfold decision
          rw [if_neg h0', parse_take_of_decided hparse (by rw [hhead]; simp) hfits, hhead]
        rw [hdecision, (completeRequest_outcome h0 hhead hrun).2, List.append_nil]
        exact decided_completeRequest hrun
      · have hle := (ReadBuffer.isFull_iff _).mp hfull
        have hdecision : ctx.decision ((buf.push n).data ++ rest) = .page 431 := by
          unfold decision
          rw [if_neg h0', List.take_append_of_le_length hle, List.take_of_length_le hfits, hhead]
          apply if_pos
          rw [List.length_append]
          omega
        obtain ⟨hdecided, hnil⟩ := decided_of_send hrun
        rw [hdecision, hnil, List.append_nil]
        exact hdecided
      · have hfull' : ¬ (buf.push n).isFull = true := by simp [hfull]
        have hout := ih n hn (ReadBuffer.free_growIfFull h0 hfull')
          (fun _ => by rw [ReadBuffer.data_growIfFull, hhead]) hrun hrest
        rwa [ReadBuffer.data_growIfFull] at hout
      · have hdecision : ctx.decision ((buf.push n).data ++ rest) = .unmatched := by
          unfold decision
          rw [if_neg h0', parse_take_of_decided hparse (by rw [hhead]; simp) hfits, hhead]
        rw [hdecision]
        exact .unmatched

end Context

/-! ### What a decision shows -/

/-- The pages that a decision sends. -/
def Decision.pages : Decision → List ℕ
  | .page code => [code]
  | _ => []

theorem Decided.pagesOf {data : Bytes} {decision : Decision} {out : Trace}
    {r : Except Unit (Option Request)} (h : Decided data decision out r) :
    pagesOf out = decision.pages := by
  cases h with
  | page hsend => exact hsend.pages
  | unsent hsend => exact hsend.pages
  | unmatched => rfl
  | accepted => rfl

theorem Decided.buf_eq {data : Bytes} {decision : Decision} {out : Trace} {request : Request}
    (h : Decided data decision out (.ok (some request))) : request.buf = data := by
  cases h with
  | accepted => rfl

namespace Context

variable {ctx : Context}

/-- A complete head is never answered with 431. -/
theorem not_mem_pages_decideHeaders (headers : List Header) :
    431 ∉ (ctx.decideHeaders headers).pages := by
  unfold decideHeaders
  cases validateFramingHeaders headers with
  | error reason => simp [Decision.pages]
  | ok u =>
    cases requestHost headers with
    | none => simp [Decision.pages]
    | some host =>
      dsimp only
      split_ifs
      · simp [Decision.pages]
      · cases ctx.find host <;> simp [Decision.pages]

/-- 431 is the decision on a stream that fills the buffer and has no decided prefix that fits. -/
theorem mem_pages_decision_iff (hmax : 0 < ctx.cfg.maxBuf) (hparse : Stable ctx.parse)
    {stream : Bytes} : 431 ∈ (ctx.decision stream).pages ↔
      ctx.cfg.maxBuf ≤ stream.length ∧
        ∀ n ≤ ctx.cfg.maxBuf, ctx.parse (stream.take n) = .incomplete := by
  have hwhole : (∀ n ≤ ctx.cfg.maxBuf, ctx.parse (stream.take n) = .incomplete) ↔
      ctx.parse (stream.take ctx.cfg.maxBuf) = .incomplete := by
    refine ⟨fun h => h _ le_rfl, ?_⟩
    intro hinc n hn
    by_contra hdecided
    exact hdecided ((hparse.of_front hdecided (List.take_prefix_take_left hn)).symm.trans hinc)
  rw [hwhole]
  unfold decision
  by_cases h0 : stream = []
  · rw [if_pos h0, h0, List.length_nil]
    exact iff_of_false (by simp [Decision.pages]) fun h => absurd h.1 (not_le.mpr hmax)
  rw [if_neg h0]
  cases ctx.parse (stream.take ctx.cfg.maxBuf) with
  | complete headers => exact iff_of_false (not_mem_pages_decideHeaders headers) (by simp)
  | incomplete =>
    dsimp only
    split_ifs with hle
    · exact iff_of_true (by simp [Decision.pages]) ⟨hle, rfl⟩
    · exact iff_of_false (by simp [Decision.pages]) fun h => hle h.1
  | error => exact iff_of_false (by simp [Decision.pages]) (by simp)

theorem parse_of_accepted {data : Bytes} {request : Request}
    (h : ctx.accepted data = some request) : ∃ headers, ctx.parse data = .complete headers := by
  unfold accepted at h
  cases hparse : ctx.parse data with
  | complete headers => exact ⟨headers, rfl⟩
  | incomplete =>
    rw [hparse] at h
    exact absurd h (by simp)
  | error =>
    rw [hparse] at h
    exact absurd h (by simp)

/-- `buf[..read_bytes]` is a prefix of the stream that contains the whole head, which is the first
decided prefix. -/
structure ContainsHead (ctx : Context) (stream buf : Bytes) : Prop where
  front : buf <+: stream
  head : ∃ headers, ctx.parse buf = .complete headers ∧
    ∃ n ≤ buf.length, ctx.parse (stream.take n) = .complete headers ∧
      ∀ m < n, ctx.parse (stream.take m) = .incomplete

theorem containsHead (hparse : Stable ctx.parse) {stream buf : Bytes} (hbuf : buf <+: stream)
    {headers : List Header} (h : ctx.parse buf = .complete headers) :
    ContainsHead ctx stream buf := by
  classical
  have htake : stream.take buf.length = buf := (List.prefix_iff_eq_take.mp hbuf).symm
  have hdecided : ctx.parse (stream.take buf.length) ≠ .incomplete := by
    rw [htake, h]
    simp
  have hexists : ∃ n, ctx.parse (stream.take n) ≠ .incomplete := ⟨_, hdecided⟩
  have hle : Nat.find hexists ≤ buf.length := Nat.find_min' hexists hdecided
  refine ⟨hbuf, headers, h, Nat.find hexists, hle, ?_, ?_⟩
  · rw [← hparse.of_front (Nat.find_spec hexists) (List.take_prefix_take_left hle), htake, h]
  · intro m hm
    exact not_not.mp (Nat.find_min hexists hm)

end Context

/-- **Reading a request** in any segmentation: the loop performs at most `max_buf` reads and two
more operations; each read is into a slice that is not empty and ends within the bound; the decision
is that on the stream; 431 is sent exactly if the stream fills the buffer and no prefix that fits is
decided; and the bytes of an accepted request contain its head. -/
theorem readRequest_segmentation {ctx : Context} (hmax : 1 ≤ ctx.cfg.maxBuf)
    (hparse : Stable ctx.parse) {stream : Bytes} {tr : Trace}
    {p : Prog Op Op.Answer (Except Unit (Option Request))}
    (hrun : Reaches ctx.readRequest.run tr p) (hs : Delivers clientTaking stream tr) :
    tr.length ≤ ctx.cfg.maxBuf + 2 ∧
    (tr.filter fun ev => ev.1.isClientRead).length ≤ ctx.cfg.maxBuf ∧
    (∀ len k, p = .perform (.readClient len) k →
      0 < len ∧ (delivered tr).length + len ≤ ctx.cfg.maxBuf) ∧
    ∀ r, p = .pure r →
      Decided (delivered tr) (ctx.decision stream) (outputs tr) r ∧
      (431 ∈ pagesOf tr ↔ ctx.cfg.maxBuf ≤ stream.length ∧
        ∀ n ≤ ctx.cfg.maxBuf, ctx.parse (stream.take n) = .incomplete) ∧
      ∀ request, r = .ok (some request) → ctx.ContainsHead stream request.buf := by
  have hroom : 0 < (ReadBuffer.empty ctx.cfg.maxBuf).free := ReadBuffer.free_empty hmax
  have hall : AtMost (fun _ => true) ctx.readRequest.run (ctx.cfg.maxBuf - 0 + 2) :=
    Context.atMost_readLoop (fun _ => atMost_bind_run atMost_op fun _ => atMost_op) hroom
  have hreads : AtMost (·.isClientRead) ctx.readRequest.run (ctx.cfg.maxBuf - 0 + 0) :=
    Context.atMost_readLoop (fun code => atMost_of_only (Context.only_send_output code _) 0) hroom
  refine ⟨?_, hreads.of_reaches hrun, ?_, ?_⟩
  · have hlen := hall.of_reaches hrun
    rwa [List.filter_true] at hlen
  · rintro len k rfl
    exact Context.reaches_readLoop_read hroom hrun
  · rintro r rfl
    have hcomplete := reaches_end_iff.mp hrun
    have hdecided := Context.decided_readLoop hparse hroom (fun h => absurd rfl h) hcomplete hs
    refine ⟨hdecided, ?_, ?_⟩
    · rw [← pagesOf_outputs, hdecided.pagesOf]
      exact Context.mem_pages_decision_iff hmax hparse
    · rintro request rfl
      have hbuf : request.buf = delivered tr := hdecided.buf_eq
      have hout := Context.readRequest_outcome hcomplete
      generalize outputs tr = out at hout
      cases hout with
      | accepted hrej hacc =>
        obtain ⟨headers, hhead⟩ := Context.parse_of_accepted hacc
        rw [hbuf]
        exact Context.containsHead hparse (delivered_front hs) hhead

/-- `httparse` on a stream that starts with this head. -/
def parseFirst (head : Bytes) (headers : List Header) (data : Bytes) : ParseResult :=
  if head <+: data then .complete headers else .incomplete

theorem stable_parseFirst (head : Bytes) (headers : List Header) :
    Stable (parseFirst head headers) := by
  intro data more hdecided
  unfold parseFirst at hdecided ⊢
  by_cases hhead : head <+: data
  · rw [if_pos hhead, if_pos (hhead.trans (List.prefix_append _ _))]
  · rw [if_neg hhead] at hdecided
    exact absurd rfl hdecided

/-- The request with two framings in two segments, and its page. -/
def segmentedEvents : Trace :=
  ⟨.readClient 4096, .ok ⟨smuggledRequest.take 10, by decide⟩⟩ ::
    ⟨.readClient 4086, .ok ⟨smuggledRequest.drop 10, by decide⟩⟩ :: sendEvents 400

theorem completes_segmentedEvents :
    Completes (emptyContext (parseFirst smuggledRequest smuggledHeaders)).readRequest
      segmentedEvents (.ok none) := by
  unfold Context.readRequest
  rw [Context.readLoop_eq]
  refine completes_bind_iff.mpr (Or.inr ⟨⟨smuggledRequest.take 10, by decide⟩, [_], _, rfl,
    completes_readClient.mpr rfl, ?_⟩)
  show Completes (Context.readLoop _ _) _ _
  rw [Context.readLoop_eq]
  refine completes_bind_iff.mpr (Or.inr ⟨⟨smuggledRequest.drop 10, by decide⟩, [_], _, rfl,
    completes_readClient.mpr rfl, ?_⟩)
  exact completes_bind_iff.mpr (Or.inr ⟨(), sendEvents 400, [], (List.append_nil _).symm,
    completes_sendEvents 400, completes_pure_iff.mpr ⟨rfl, rfl⟩⟩)

theorem delivers_segmentedEvents : Delivers clientTaking smuggledRequest segmentedEvents := by
  refine delivers_read_iff.mpr ⟨smuggledRequest.drop 10, rfl, by decide, ?_⟩
  refine delivers_read_iff.mpr ⟨[], rfl, by decide, ?_⟩
  exact .skip rfl (.skip rfl (.stop []))

theorem readRequest_segmentation_two :
    Decided smuggledRequest (.page 400) (sendEvents 400) (.ok none) :=
  ((readRequest_segmentation (by decide) (stable_parseFirst smuggledRequest smuggledHeaders)
    (reaches_end_iff.mpr completes_segmentedEvents) delivers_segmentedEvents).2.2.2 _ rfl).1

end Scety
