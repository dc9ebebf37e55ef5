import Scety.Basic

/-!
# `config/get_scety_config.rs`: the settings of the process

The part of `ScetyConfig` that serving a connection reads.  `ScetyConfig::new` always sets the
buffer size, so that the `unwrap` of its readers succeeds; the type records it.
-/

namespace Scety

/-- `std::time::Duration`, in nanoseconds. -/
abbrev Duration := ℕ

structure ScetyConfig where
  maxHostLabels : Option Int32
  clientHeadersTimeout : Option Duration
  clientBodyTimeout : Option Duration
  clientHeaderBuffer : Option Int32
  globalUpstreamHeaders : HashMap Str Str
  globalResponseHeaders : HashMap Str Str
  clientHeaderBuffer_isSome : clientHeaderBuffer.isSome = true

namespace ScetyConfig

/-- `cfg.client_header_buffer.unwrap() as usize`, which sign-extends. -/
def maxBuf (cfg : ScetyConfig) : ℕ :=
  (cfg.clientHeaderBuffer.get cfg.clientHeaderBuffer_isSome).toInt64.toUInt64.toNat

/-- `host_exceeds_label_limit`. -/
def hostExceedsLabelLimit (cfg : ScetyConfig) (host : Str) : Bool :=
  match cfg.maxHostLabels with
  | some limit => decide (0 ≤ limit.toInt ∧ limit.toInt < (labels host).length)
  | none => false

/-- A limit that is not negative bounds the labels of the hosts that pass. -/
theorem labels_length_le {cfg : ScetyConfig} {limit : Int32} (h : cfg.maxHostLabels = some limit)
    (h0 : 0 ≤ limit.toInt) {host : Str} (hpass : cfg.hostExceedsLabelLimit host = false) :
    ((labels host).length : ℤ) ≤ limit.toInt := by
  unfold hostExceedsLabelLimit at hpass
  rw [h] at hpass
  have hlt := of_decide_eq_false hpass
  omega

end ScetyConfig

theorem defaultBuffer_isSome : (some (16384 : Int32)).isSome = true := rfl

/-- The default limits, without timeouts and headers. -/
def plainSettings : ScetyConfig := ⟨some 20, none, none, some 16384, ∅, ∅, defaultBuffer_isSome⟩

end Scety
