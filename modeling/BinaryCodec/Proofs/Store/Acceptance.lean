import BinaryCodec.Store.Basic

namespace BinaryCodec

namespace Content

theorem overwrite_append (content : Content) (position : Nat) (front back : List UInt8) :
    content.overwrite position (front ++ back) =
      (content.overwrite position front).overwrite (position + front.length) back := by
  induction front generalizing content position with
  | nil => rfl
  | cons b rest ih =>
    have next : position + (b :: rest).length = position + 1 + rest.length := by
      rw [List.length_cons]
      omega
    rw [List.cons_append, overwrite, overwrite, next]
    split <;> exact ih _ _

theorem toList_overwrite {content : Content} {position : Nat} (within : position ≤ content.size)
    (bytes : List UInt8) :
    (content.overwrite position bytes).toList =
      content.toList.take position ++ bytes ++ content.toList.drop (position + bytes.length) := by
  induction bytes generalizing content position with
  | nil => simp [overwrite]
  | cons b rest ih =>
    have after : position + (b :: rest).length = position + 1 + rest.length := by
      rw [List.length_cons]
      omega
    rw [overwrite, after]
    split
    · next inside =>
      have front : (content.toList.set position b).take (position + 1) =
          content.toList.take position ++ [b] := by
        rw [List.take_add_one, List.take_set_of_le (Nat.le_refl position)]
        simp [inside]
      rw [ih (by rw [Array.size_set]; exact inside), Array.toList_set, front, List.drop_set_of_lt (by omega)]
      simp
    · have full : position = content.toList.length := by
        rw [Array.length_toList]
        omega
      have nothing : ∀ tail : List UInt8, tail.length ≤ 1 →
          (content.toList ++ tail).drop (content.toList.length + 1 + rest.length) = [] := by
        intro tail short
        rw [List.drop_eq_nil_iff, List.length_append]
        omega
      have beyond := nothing [] (Nat.zero_le 1)
      rw [List.append_nil] at beyond
      rw [ih (by rw [Array.size_push]; omega), Array.toList_push, full, nothing [b] (Nat.le_refl 1),
        beyond, List.take_of_length_le (by simp), List.take_length]
      simp

theorem append_append (content : Content) (front back : List UInt8) :
    content.append (front ++ back) = (content.append front).append back := List.foldl_append

end Content

namespace Store

def Accepts : Store → Prop
  | .memory _ => True
  | .writer w => w.failsAt = none
  | .file f => f.readOnly = false ∧ f.isOpen = true
  | .slice _ | .reader _ | .seekable _ => False

def written (bytes : List UInt8) : Store → Store
  | .memory m => .memory (m.write bytes)
  | .writer w => .writer (w.accept bytes)
  | .file f => .file { f with
      content := f.content.overwrite f.writePosition bytes
      writePosition := f.writePosition + bytes.length }
  | store => store

variable {s : Store}

theorem write_eq (accepts : s.Accepts) (bytes : List UInt8) :
    s.write bytes = .ok () (s.written bytes) := by
  cases s with
  | memory m => rfl
  | writer w =>
    simp only [Accepts] at accepts
    simp only [write, Writer.write, accepts, written]
  | file f =>
    obtain ⟨content, readPosition, writePosition, readOnly, isOpen⟩ := f
    obtain ⟨rfl, rfl⟩ := accepts
    rfl
  | slice | reader | seekable => exact accepts.elim

theorem Accepts.written (accepts : s.Accepts) (bytes : List UInt8) : (s.written bytes).Accepts := by
  cases s <;> exact accepts

@[simp] theorem written_written (front back : List UInt8) :
    (s.written front).written back = s.written (front ++ back) := by
  cases s with
  | memory m => simp [written, Memory.write, Content.overwrite_append, Nat.add_assoc]
  | writer w => simp [written, Writer.accept, Content.append_append, Nat.add_assoc]
  | file f => simp [written, Content.overwrite_append, Nat.add_assoc]
  | slice | reader | seekable => rfl

theorem written_nil : s.written [] = s := by
  cases s <;> rfl

theorem writePosition_written (accepts : s.Accepts) (bytes : List UInt8) :
    ∃ position, s.writePosition = .ok position ∧
      (s.written bytes).writePosition = .ok (position + bytes.length) := by
  cases s with
  | memory m => exact ⟨m.writePosition, rfl, rfl⟩
  | writer w => exact ⟨w.written, rfl, rfl⟩
  | file f => exact ⟨f.writePosition, rfl, rfl⟩
  | slice | reader | seekable => exact accepts.elim

end Store

end BinaryCodec
