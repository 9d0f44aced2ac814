import ShardedCCF.Lib.Bytes

/-! The bytes of a file under writes at an offset and truncation. What lies
between the old end and a write beyond it reads as zero. -/
namespace Lib

/-- `fwrite` after `fseeko`. -/
def writeAt (contents : List Byte) (offset : Nat) (data : List Byte) : List Byte :=
  contents.take offset ++ List.replicate (offset - contents.length) 0 ++ data ++
    contents.drop (offset + data.length)

/-- `ftruncate`. -/
def truncateTo (contents : List Byte) (length : Nat) : List Byte :=
  contents.take length ++ List.replicate (length - contents.length) 0

theorem writeAt_length (contents data : List Byte) : writeAt contents contents.length data = contents ++ data := by
  simp [writeAt]

theorem writeAt_nil (offset : Nat) (data : List Byte) :
    writeAt [] offset data = List.replicate offset 0 ++ data := by
  simp [writeAt]

theorem writeAt_zero (front back data : List Byte) (same : data.length = front.length) :
    writeAt (front ++ back) 0 data = data ++ back := by
  simp [writeAt, same]

theorem truncateTo_append (front back : List Byte) : truncateTo (front ++ back) front.length = front := by
  simp [truncateTo]

theorem ofBytes_replicate_zero (n : Nat) : ofBytes (List.replicate n 0) = 0 := by
  induction n with
  | zero => rfl
  | succ n ih => simp [List.replicate_succ, ofBytes, ih]

end Lib
