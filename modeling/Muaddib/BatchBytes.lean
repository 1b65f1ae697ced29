import Muaddib.PipelineData
import Muaddib.WordMixing

/-! # Batches do not collide

The bytes a batch starts with determine its number, and no stage loses any of them. The checksum is not
injective, but a single wrong byte cannot escape it. -/
namespace Muaddib
open Function WordMixing

namespace SplitMix64

theorem nextU64_injective : Injective fun rng : SplitMix64 => rng.nextU64.1 := by
  intro a b hab
  have hmix₁ := mul_injective (a := 0xBF58476D1CE4E5B9) (b := 0x96DE1B173F119089) (by decide)
  have hmix₂ := mul_injective (a := 0x94D049BB133111EB) (b := 0x319642B2D24D8EC3) (by decide)
  have hshift : ∀ k : UInt64, 0 < k.toNat % 64 → Injective fun z : UInt64 => z ^^^ (z >>> k) :=
    fun k => xor_shiftRight_injective
  have hstate := hshift 30 (by decide) (hmix₁ (hshift 27 (by decide) (hmix₂ (hshift 31 (by decide) hab))))
  cases a
  cases b
  exact congrArg SplitMix64.mk (add_injective 0x9E3779B97F4A7C15 hstate)

theorem toLeBytes_injective : Injective toLeBytes := by
  intro x y hxy
  apply eq_of_bytes
  intro i hi
  exact List.map_inj_left.mp hxy i (List.mem_range.mpr hi)

theorem length_toLeBytes (z : UInt64) : (toLeBytes z).length = 8 := by
  rw [toLeBytes, List.length_map, List.length_range]

theorem take_fill (rng : SplitMix64) {buf : List UInt8} (hlen : 8 ≤ buf.length) :
    (rng.fill buf).1.take 8 = toLeBytes rng.nextU64.1 := by
  obtain ⟨n, hn⟩ : ∃ n, (buf.length + 7) / 8 = n + 1 := ⟨(buf.length + 7) / 8 - 1, by omega⟩
  rw [fill, hn, words]
  simp only [List.flatMap_cons]
  rw [List.take_take, Nat.min_eq_left hlen, ← length_toLeBytes rng.nextU64.1, List.take_left]

end SplitMix64

theorem take_fillBatch_injective (seed : UInt64) {buf buf' : Bytes} (hlen : 8 ≤ buf.length)
    (hlen' : 8 ≤ buf'.length) {batch batch' : UInt64}
    (h : (fillBatch seed batch buf).take 8 = (fillBatch seed batch' buf').take 8) :
    batch = batch' := by
  rw [fillBatch, fillBatch, SplitMix64.take_fill _ hlen, SplitMix64.take_fill _ hlen'] at h
  have hstate := SplitMix64.nextU64_injective (SplitMix64.toLeBytes_injective h)
  have hmixed := congrArg SplitMix64.state hstate
  simp only [SplitMix64.new, UInt64.xor_comm seed] at hmixed
  exact mul_injective (a := 0xD6E8FEB86659FD93) (b := 0xCFEE444D8B59A89B) (by decide)
    (xor_injective seed hmixed)

/-- The loop of `transform` the other way: the accumulator can be read off the byte it left. -/
def untransformBytes (key : UInt8) : UInt8 → Bytes → Bytes
  | _, [] => []
  | acc, byte :: buf => (rotateLeft3 acc ^^^ (byte - key)) :: untransformBytes key (byte - key) buf

theorem untransformBytes_transformBytes (key acc : UInt8) (buf : Bytes) :
    untransformBytes key acc (transformBytes key acc buf) = buf := by
  induction buf generalizing acc with
  | nil => rfl
  | cons byte buf ih =>
    rw [transformBytes, untransformBytes, UInt8.add_sub_cancel, ih, ← UInt8.xor_assoc,
      UInt8.xor_self, UInt8.zero_xor]

theorem transformBytes_untransformBytes (key acc : UInt8) (buf : Bytes) :
    transformBytes key acc (untransformBytes key acc buf) = buf := by
  induction buf generalizing acc with
  | nil => rfl
  | cons byte buf ih =>
    rw [untransformBytes, transformBytes, ← UInt8.xor_assoc, UInt8.xor_self, UInt8.zero_xor, ih,
      UInt8.sub_add_cancel]

theorem transform_bijective (stage : ℕ) : Bijective (transform stage) := by
  rw [bijective_iff_has_inverse]
  exact ⟨untransformBytes _ _, untransformBytes_transformBytes _ _,
    transformBytes_untransformBytes _ _⟩

theorem transforms_injective (stages : ℕ) :
    Injective fun buf => (List.range stages).foldl (fun buf stage => transform stage buf) buf :=
  foldl_injective (fun stage => (transform_bijective stage).1) _

/-- Two batches never look the same, whatever was in their buffers before. -/
theorem batches_never_collide (seed : UInt64) (stages regionSize : ℕ) (hsize : 8 ≤ regionSize) :
    (∀ batch batch' buf buf', batch ≠ batch' → buf.length = regionSize → buf'.length = regionSize →
      (List.range stages).foldl (fun buf stage => transform stage buf) (fillBatch seed batch buf) ≠
        (List.range stages).foldl (fun buf stage => transform stage buf)
          (fillBatch seed batch' buf')) ∧
    (∀ stage, Bijective (transform stage) ∧ ∀ buf, (transform stage buf).length = buf.length) ∧
    ∀ buf : Bytes, buf.length = regionSize →
      Injective fun batch => (fillBatch seed batch buf).take 8 := by
  refine ⟨fun batch batch' buf buf' hne hlen hlen' heq => ?_, fun stage =>
    ⟨transform_bijective stage, length_transform stage⟩, fun buf hlen batch batch' heq => ?_⟩
  · have hfilled := transforms_injective stages heq
    exact hne (take_fillBatch_injective seed (hlen ▸ hsize) (hlen' ▸ hsize)
      (congrArg (List.take 8) hfilled))
  · exact take_fillBatch_injective seed (hlen ▸ hsize) (hlen ▸ hsize) heq

theorem batches_never_collide_in_two_words :
    (List.range 3).foldl (fun buf stage => transform stage buf) (fillBatch 7 0 (List.replicate 16 0)) ≠
      (List.range 3).foldl (fun buf stage => transform stage buf)
        (fillBatch 7 1 (List.replicate 16 255)) :=
  (batches_never_collide 7 3 16 (by decide)).1 0 1 _ _ (by decide) rfl rfl

theorem checksum_step_injective_state (b : UInt8) :
    Injective fun h : UInt64 => (h ^^^ b.toUInt64) * 0x00000100000001B3 :=
  (mul_injective (by decide : (0x00000100000001B3 : UInt64) * 0xCE965057AFF6957B = 1)).comp
    (xor_injective b.toUInt64)

theorem checksum_step_injective_byte (h : UInt64) :
    Injective fun b : UInt8 => (h ^^^ b.toUInt64) * 0x00000100000001B3 := by
  intro b c hbc
  have hxor := mul_injective (by decide : (0x00000100000001B3 : UInt64) * 0xCE965057AFF6957B = 1) hbc
  simp only [UInt64.xor_comm h] at hxor
  exact toUInt64_injective (xor_injective h hxor)

/-- A single wrong byte changes the checksum. -/
theorem checksum_detects_one_byte (x y : Bytes) (hlen : x.length = y.length)
    (hone : ∃! i : ℕ, x[i]? ≠ y[i]?) : checksum x ≠ checksum y := by
  obtain ⟨i, hdiffer, honly⟩ := hone
  refine foldl_ne_of_one_differs checksum_step_injective_state checksum_step_injective_byte hlen hdiffer
    (fun j hj => ?_) _
  by_contra hne
  exact hj (honly j hne)

theorem checksum_detects_last_byte : checksum [1, 2, 3] ≠ checksum [1, 2, 4] := by
  apply checksum_detects_one_byte [1, 2, 3] [1, 2, 4] rfl
  refine ⟨2, by decide, fun j hj => ?_⟩
  rcases j with _ | _ | _ | j
  · exact absurd rfl hj
  · exact absurd rfl hj
  · rfl
  · exact absurd rfl hj

end Muaddib
