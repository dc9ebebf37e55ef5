import Scety.Bytes

/-!
# `network/listeners.rs`: the functions on header lists

The framing guard and the websocket test, on the headers that `httparse` has read.
-/

namespace Scety

/-- `httparse::Header`. -/
structure Header where
  name : Str
  value : Bytes
  deriving DecidableEq

/-- `h.name.eq_ignore_ascii_case(name)`. -/
def Header.named (h : Header) (name : Str) : Bool :=
  eqIgnoreAsciiCase (bytes h.name) (bytes name)

def contentLengthName : Str := "Content-Length".toList

def transferEncodingName : Str := "Transfer-Encoding".toList

/-! ### `validate_framing_headers` -/

/-- The two variables of the loop. -/
structure Framing where
  contentLength : Option Bytes
  transferEncoding : Option Bytes

/-- The body of the loop. -/
def framingStep (st : Framing) (h : Header) : Except Str Framing :=
  if h.named contentLengthName then
    match st.contentLength with
    | none => .ok { st with contentLength := some h.value }
    | some prev =>
      if prev = h.value then .ok st
      else .error "multiple Content-Length headers with different values".toList
  else if h.named transferEncodingName then .ok { st with transferEncoding := some h.value }
  else .ok st

/-- The test of the transfer coding: the value is trimmed as text. -/
def isChunked (value : Bytes) : Bool :=
  eqIgnoreAsciiCase (bytes (trim ((fromUtf8 value).getD []))) (bytes "chunked".toList)

def validateFramingHeaders (headers : List Header) : Except Str Unit := do
  let st ← headers.foldlM framingStep ⟨none, none⟩
  if st.transferEncoding.isSome ∧ st.contentLength.isSome then
    .error "both Content-Length and Transfer-Encoding present".toList
  else
    match st.transferEncoding with
    | some value =>
      if isChunked value then .ok ()
      else .error "Transfer-Encoding present but is not exactly 'chunked'".toList
    | none => .ok ()

/-! ### `is_websocket_upgrade` -/

def hasToken (value : Bytes) (token : Str) : Bool :=
  (((fromUtf8 value).getD []).splitOn ',').any fun t =>
    eqIgnoreAsciiCase (bytes (trim t)) (bytes token)

def isWebsocketUpgrade (headers : List Header) : Bool :=
  (headers.any fun h => h.named "Connection".toList && hasToken h.value "upgrade".toList) &&
    headers.any fun h => h.named "Upgrade".toList && hasToken h.value "websocket".toList

end Scety
