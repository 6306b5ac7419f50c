import NekoOs.ByteMemory
import NekoOs.Words

/-!
Words on a stack that grows down: what pushing a list of them leaves in memory, and
where each of them is found again.
-/
namespace NekoOs.PushWords
open ByteMemory Words

structure Stack where
  mem : Memory
  sp : Nat

def Stack.push (s : Stack) (v : Nat) : Stack := ⟨store s.mem (sub64 s.sp 8) 8 v,sub64 s.sp 8⟩

/-- The first word highest. -/
def Stack.pushAll (s : Stack) (vs : List Nat) : Stack := vs.foldl Stack.push s

/-- Words at consecutive addresses, the first one lowest. -/
def Holds (m : Memory) (a : Nat) (vs : List Nat) : Prop := ∀ i v, vs[i]? = some v → load m (a + 8 * i) 8 = v

section
variable {s : Stack} {m n : Memory} {a : Nat} {vs ws : List Nat}

theorem pushAll_append : s.pushAll (vs ++ ws) = (s.pushAll vs).pushAll ws := List.foldl_append

theorem pushAll_push (v : Nat) : s.pushAll (v :: vs) = (s.push v).pushAll vs := by
  rw [Stack.pushAll,List.foldl_cons,Stack.pushAll]

/-- A push that does not wrap. -/
theorem push_eq (room : 8 ≤ s.sp) (fits : s.sp < limit64) (v : Nat) : s.push v = ⟨store s.mem (s.sp - 8) 8 v,s.sp - 8⟩ := by
  rw [Stack.push,sub64_eq room fits]

theorem pushAll_cons (room : 8 ≤ s.sp) (fits : s.sp < limit64) (v : Nat) :
    s.pushAll (v :: vs) = Stack.pushAll ⟨store s.mem (s.sp - 8) 8 v,s.sp - 8⟩ vs := by
  rw [pushAll_push,push_eq room fits]

theorem pushAll_sp (room : 8 * vs.length ≤ s.sp) (fits : s.sp < limit64) : (s.pushAll vs).sp = s.sp - 8 * vs.length := by
  induction vs generalizing s with
  | nil => rfl
  | cons v vs ih =>
    rw [List.length_cons] at room ⊢
    rw [pushAll_cons (by omega) fits,ih (by simp only; omega) (by simp only; omega)]
    simp only
    omega

/-- Pushing writes below the stack pointer, and no further than it goes. -/
theorem pushAll_outside (room : 8 * vs.length ≤ s.sp) (fits : s.sp < limit64) {x : Nat}
    (outside : x < s.sp - 8 * vs.length ∨ s.sp ≤ x) : (s.pushAll vs).mem x = s.mem x := by
  induction vs generalizing s with
  | nil => rfl
  | cons v vs ih =>
    rw [List.length_cons] at room outside
    rw [pushAll_cons (by omega) fits,ih (by simp only; omega) (by simp only; omega) (by simp only; omega)]
    exact store_outside (by omega)

/-- The words are found in the reverse order, from the new stack pointer up. -/
theorem pushAll_holds (room : 8 * vs.length ≤ s.sp) (fits : s.sp < limit64) (words : ∀ v ∈ vs, v < limit64) :
    Holds (s.pushAll vs).mem (s.sp - 8 * vs.length) vs.reverse := by
  induction vs generalizing s with
  | nil =>
    intro i v found
    simp at found
  | cons v vs ih =>
    rw [List.length_cons] at room
    have small : v < limit64 := words v (by simp)
    rw [pushAll_cons (by omega) fits]
    intro i w found
    rw [List.reverse_cons] at found
    rw [List.length_cons,show s.sp - 8 * (vs.length + 1) = s.sp - 8 - 8 * vs.length by omega]
    by_cases last : i < vs.length
    · rw [List.getElem?_append_left (by simpa using last)] at found
      exact ih (s := ⟨store s.mem (s.sp - 8) 8 v,s.sp - 8⟩) (by simp only; omega) (by simp only; omega)
        (fun u member => words u (by simp [member])) i w found
    · have place : i = vs.length := by
        have inside := (List.getElem?_eq_some_iff.mp found).1
        simp only [List.length_append,List.length_reverse,List.length_singleton] at inside
        omega
      subst place
      obtain rfl : v = w := by simpa using found
      rw [show s.sp - 8 - 8 * vs.length + 8 * vs.length = s.sp - 8 by omega]
      have above : load (Stack.pushAll ⟨store s.mem (s.sp - 8) 8 v,s.sp - 8⟩ vs).mem (s.sp - 8) 8 =
          load (store s.mem (s.sp - 8) 8 v) (s.sp - 8) 8 :=
        load_congr (fun x low _ => pushAll_outside (by simp only; omega) (by simp only; omega) (.inr low))
      rw [above]
      exact load_store_same (by simpa [limit64] using small)

theorem Holds.congr (holds : Holds m a vs) (same : ∀ x, a ≤ x → x < a + 8 * vs.length → n x = m x) : Holds n a vs := by
  intro i v found
  have inside := (List.getElem?_eq_some_iff.mp found).1
  rw [← holds i v found]
  exact load_congr (fun x low high => same x (by omega) (by omega))

theorem holds_append : Holds m a (vs ++ ws) ↔ Holds m a vs ∧ Holds m (a + 8 * vs.length) ws := by
  constructor
  · refine fun holds => ⟨fun i v found => holds i v ?_,fun i v found => ?_⟩
    · rw [List.getElem?_append_left (List.getElem?_eq_some_iff.mp found).1]
      exact found
    · have there := holds (vs.length + i) v (by rw [List.getElem?_append_right (by omega)]; simpa using found)
      rwa [Nat.mul_add,← Nat.add_assoc] at there
  · rintro ⟨first,second⟩ i v found
    by_cases inside : i < vs.length
    · exact first i v (by rwa [List.getElem?_append_left inside] at found)
    · rw [List.getElem?_append_right (by omega)] at found
      have there := second (i - vs.length) v found
      rwa [Nat.add_assoc,← Nat.mul_add,Nat.add_sub_cancel' (by omega)] at there

end
end NekoOs.PushWords
