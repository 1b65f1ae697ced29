import Muaddib.MemoryRegions
import Muaddib.RingPipelines
import Muaddib.SplitMix

/-! # The pipeline's data work

Pure functions on a region's bytes, shared by both pipelines and the reference. -/
namespace Muaddib

/-- Fills the buffer with batch `batch`'s input bytes. -/
def fillBatch (seed batch : UInt64) (buf : Bytes) : Bytes :=
  ((SplitMix64.new (seed ^^^ (batch * 0xD6E8FEB86659FD93))).fill buf).1

def rotateLeft3 (b : UInt8) : UInt8 := (b <<< 3) ||| (b >>> 5)

/-- The loop of `transform`, with its running accumulator. -/
def transformBytes (key : UInt8) : UInt8 → Bytes → Bytes
  | _, [] => []
  | acc, byte :: buf =>
    let acc := rotateLeft3 acc ^^^ byte
    (acc + key) :: transformBytes key acc buf

/-- Stage `stage`'s in-place transform. -/
def transform (stage : ℕ) (buf : Bytes) : Bytes :=
  let key := UInt8.ofNat stage * 0x9D + 0x3B
  transformBytes key key buf

def checksum (buf : Bytes) : UInt64 :=
  buf.foldl (fun h b => (h ^^^ b.toUInt64) * 0x00000100000001B3) 0xCBF29CE484222325

/-- The expected checksum of one batch, computed directly, with no pipeline at all. -/
def referenceChecksum (seed batch : UInt64) (regionSize stages : ℕ) : UInt64 :=
  checksum ((List.range stages).foldl (fun buf stage => transform stage buf)
    (fillBatch seed batch (List.replicate regionSize 0)))

/-- The bytes of a batch before stage `stage`. -/
def referenceBytes (seed batch : UInt64) (regionSize : ℕ) : ℕ → Bytes
  | 0 => fillBatch seed batch (List.replicate regionSize 0)
  | stage + 1 => transform stage (referenceBytes seed batch regionSize stage)

theorem referenceChecksum_eq (seed batch : UInt64) (regionSize stages : ℕ) :
    referenceChecksum seed batch regionSize stages =
      checksum (referenceBytes seed batch regionSize stages) := by
  rw [referenceChecksum]
  congr 1
  induction stages with
  | zero => rfl
  | succ stage ih => rw [List.range_succ, List.foldl_append, ih, referenceBytes]; rfl

@[simp] theorem length_fillBatch (seed batch : UInt64) (buf : Bytes) :
    (fillBatch seed batch buf).length = buf.length := SplitMix64.length_fill ..

@[simp] theorem length_transformBytes (key acc : UInt8) (buf : Bytes) :
    (transformBytes key acc buf).length = buf.length := by
  induction buf generalizing acc with
  | nil => rfl
  | cons byte buf ih => exact congrArg (· + 1) (ih _)

@[simp] theorem length_transform (stage : ℕ) (buf : Bytes) :
    (transform stage buf).length = buf.length := length_transformBytes ..

theorem fillBatch_eq (seed batch : UInt64) {buf : Bytes} {regionSize : ℕ}
    (h : buf.length = regionSize) :
    fillBatch seed batch buf = referenceBytes seed batch regionSize 0 := by
  rw [fillBatch, SplitMix64.fill_congr]
  · rfl
  · rw [h, List.length_replicate]

theorem length_referenceBytes (seed batch : UInt64) (regionSize stages : ℕ) :
    (referenceBytes seed batch regionSize stages).length = regionSize := by
  induction stages with
  | zero => simp [referenceBytes]
  | succ stage ih => rw [referenceBytes, length_transform, ih]

def bytesWork (seed : UInt64) : RingPipelines.Work Bytes UInt64 where
  fill b x := fillBatch seed (UInt64.ofNat b) x
  stage := transform
  retire x := x
  result := checksum

theorem bytesWork_lawful (seed : UInt64) (regionSize : ℕ) :
    RingPipelines.Carousel.Lawful (bytesWork seed) (fun x => x.length = regionSize)
      fun b => referenceBytes seed (UInt64.ofNat b) regionSize 0 where
  fill b _ hx := fillBatch_eq seed (UInt64.ofNat b) hx
  first b := length_referenceBytes seed (UInt64.ofNat b) regionSize 0
  stage i x hx := (length_transform i x).trans hx
  retire _ hx := hx

theorem bytesWork_content (seed : UInt64) (regionSize b stages : ℕ) :
    RingPipelines.Carousel.content (bytesWork seed)
      (fun b => referenceBytes seed (UInt64.ofNat b) regionSize 0) b stages =
      referenceBytes seed (UInt64.ofNat b) regionSize stages := by
  induction stages with
  | zero => rfl
  | succ stage ih => rw [RingPipelines.Carousel.content, ih]; rfl

example : checksum [] = 0xCBF29CE484222325 ∧ checksum [97] = 0xAF63DC4C8601EC8C := by decide

end Muaddib
