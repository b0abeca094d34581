import PlainSync.Proofs.Normalize.Replacements

/-!
# Operands of a replaced call

What a call is exchanged for is the template of its built-in with its operands and the names of its
temporaries filled in, and line ends behind it. Each operand is an argument, normalized as a source
of its own behind the arguments in front of it.
-/

namespace PlainSync.Source

open Bytes Reading

/-- A session keeps its settings. -/
theorem config_normalizeAll (session : Session) (sources : List Bytes) :
    (session.normalizeAll sources).2.config = session.config := by
  induction sources generalizing session with
  | nil => rfl
  | cons source more ih =>
    have hconfig : (session.normalize source).2.config = session.config := by
      unfold Session.normalize
      split <;> rfl
    exact (ih _).trans hconfig

/-- A source is normalized behind those in front of it. -/
theorem getElem?_normalizeAll (session : Session) (passed : List Bytes) (source : Bytes)
    (later : List Bytes) :
    (session.normalizeAll (passed ++ source :: later)).1[passed.length]? =
      some ((session.normalizeAll passed).2.normalize source).1 := by
  induction passed generalizing session with
  | nil => rfl
  | cons first passed ih => exact ih _

/-- The place that an argument takes in an expansion, where it is evaluated. -/
def operandSlot : Nat → Slot
  | 0 => .pointer
  | index + 1 => .value index

/-- Every operand has its place in an expansion. -/
theorem operandSlot_mem_template {builtin : Builtin} {index : Nat}
    (hindex : index < builtin.operandCount) :
    Symbol.slot (operandSlot index) ∈ template builtin := by
  have hcount : builtin.operandCount ≤ 3 := by cases builtin <;> simp [Builtin.operandCount]
  have hget : [Slot.pointer, .value 0, .value 1][index]? = some (operandSlot index) := by
    have hsmall : index = 0 ∨ index = 1 ∨ index = 2 := by omega
    rcases hsmall with rfl | rfl | rfl <;> rfl
  have hslot : operandSlot index ∈ operandSlots (template builtin) := by
    rw [operandSlots_template]
    exact List.mem_append_right _
      (List.mem_of_getElem? ((List.getElem?_take_of_lt hindex).trans hget))
  obtain ⟨symbol, hsymbol, hplace⟩ := List.mem_filterMap.mp hslot
  split at hplace
  · cases hplace
  · cases hplace
  · cases hplace
  · obtain rfl := Option.some.inj hplace
    exact hsymbol

/-- The place of an operand is filled with its text. -/
theorem text_operandSlot (index : Nat) (texts : List Bytes) (names : Temporaries) :
    (operandSlot index).text (callOperands texts) names = texts[index]?.getD [] := by
  cases index with
  | zero => rw [← List.head?_eq_getElem?]; rfl
  | succ index => rw [← List.getElem?_tail]; rfl

namespace Replacement

variable (replacement : Replacement) (config : Config)

/-- What the places of the expansion are filled with. -/
def filled : Operands :=
  callOperands ((replacement.operands config).1.map fun operand => operandText operand.text)

/-- The names that the expansion declares. -/
def names : Temporaries := .numbered (replacement.operands config).2.site

/-- The line ends behind the expansion. -/
def padding : Bytes :=
  List.replicate (newlines replacement.written -
    newlines ((replacement.expansion? config).getD [])) Byte.newline

variable {replacement config}

/-- What a call is exchanged for is its template with its operands filled in. -/
theorem text_eq_fill (hexpands : (replacement.expansion? config).isSome) :
    replacement.text config =
      fill (replacement.filled config) (replacement.names config) (template replacement.builtin) ++
        replacement.padding config := by
  obtain ⟨expansion, hexpansion⟩ := Option.isSome_iff_exists.mp hexpands
  have hfill : expansion = fill (replacement.filled config) (replacement.names config)
      (template replacement.builtin) := by
    have hexpanded := hexpansion
    rw [expansion?, expand?] at hexpanded
    split at hexpanded
    · cases hexpanded
    · rw [fill_template]
      exact (Option.some.inj hexpanded).symm
  rw [text, padding, hexpansion, ← hfill]
  rfl

end Replacement

end PlainSync.Source
