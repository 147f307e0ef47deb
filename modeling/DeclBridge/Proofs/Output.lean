import DeclBridge.Output

/-!
Outputs in memory. Such an output holds the first of all bytes that were written to it, as many as
its limit allows, and a write succeeds if none of its bytes is lost.
-/

namespace DeclBridge

/-- Whether as many bytes stay within a limit, if there is one. -/
def HasRoom (limit : Option Nat) (size : Nat) : Prop :=
  ∀ n ∈ limit, size ≤ n

instance (limit : Option Nat) (size : Nat) : Decidable (HasRoom limit size) :=
  decidable_of_iff (limit.all (size ≤ ·) = true) (by cases limit <;> simp [HasRoom])

variable {limit : Option Nat} {size size' : Nat} {bytes more : ByteArray}

theorem HasRoom.mono (h : HasRoom limit size) (hsize : size' ≤ size) : HasRoom limit size' :=
  fun n hn => Nat.le_trans hsize (h n hn)

theorem exists_lt_of_not_hasRoom (h : ¬ HasRoom limit size) : ∃ n, limit = some n ∧ n < size := by
  simpa [HasRoom] using h

theorem limited_of_hasRoom (h : HasRoom limit bytes.size) : limited limit bytes = bytes := by
  cases limit with
  | none => rfl
  | some n =>
      have hall := ByteArray.extract_zero_max_size (a := bytes) (i := n)
      rwa [Nat.max_eq_left (h n rfl)] at hall

theorem limited_append_of_not_hasRoom (h : ¬ HasRoom limit bytes.size) :
    limited limit (bytes ++ more) = limited limit bytes := by
  obtain ⟨n, rfl, hn⟩ := exists_lt_of_not_hasRoom h
  have hnone : n - bytes.size = 0 := Nat.sub_eq_zero_of_le (Nat.le_of_lt hn)
  rw [limited, limited, ByteArray.extract_append, hnone, Nat.zero_sub, ByteArray.extract_same,
    ByteArray.append_empty]

theorem limited_limited_append (limit : Option Nat) (bytes more : ByteArray) :
    limited limit (limited limit bytes ++ more) = limited limit (bytes ++ more) := by
  cases limit with
  | none => rfl
  | some n =>
      have hleft : n - (bytes.extract 0 n).size = n - bytes.size := by
        rw [ByteArray.size_extract]
        omega
      have hinner : (bytes.extract 0 n).extract 0 n = bytes.extract 0 n := by
        rw [ByteArray.extract_extract, Nat.zero_add, Nat.zero_add, Nat.min_self]
      rw [limited, limited, limited, ByteArray.extract_append, ByteArray.extract_append, hleft,
        hinner, Nat.zero_sub, Nat.zero_sub]

theorem size_limited_eq_iff :
    (limited limit bytes).size = bytes.size ↔ HasRoom limit bytes.size := by
  constructor
  · intro h n hn
    cases hn
    rw [limited, ByteArray.size_extract] at h
    omega
  · intro h
    rw [limited_of_hasRoom h]

namespace Output

/-- What a write to memory does, whatever was written before. -/
theorem write_memory (limit : Option Nat) (all bytes : ByteArray) (d : Disk) :
    (memory limit (limited limit all)).write d bytes =
      (if bytes.size = 0 ∨ HasRoom limit (all.size + bytes.size) then .ok () else .error .full,
        memory limit (limited limit (all ++ bytes)), d) := by
  rw [write, limited_limited_append]
  refine congrArg (·, _) (ite_congr (propext ?_) (fun _ => rfl) (fun _ => rfl))
  rw [ByteArray.size_append]
  by_cases hroom : HasRoom limit all.size
  · rw [limited_of_hasRoom hroom, ← ByteArray.size_append, size_limited_eq_iff]
    constructor
    · exact .inr
    · rintro (hempty | h)
      · rw [ByteArray.size_append, hempty]
        exact hroom
      · exact h
  · -- Nothing but nothing is written without loss behind the limit.
    rw [limited_append_of_not_hasRoom hroom]
    constructor
    · intro h
      left
      omega
    · rintro (hempty | h)
      · rw [hempty, Nat.add_zero]
      · exact absurd (h.mono (Nat.le_add_right _ _)) hroom

end Output

end DeclBridge
