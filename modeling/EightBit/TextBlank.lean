/-!
# Blank characters

The characters with the Unicode property White_Space, and texts freed of them at both ends.
-/
namespace EightBit.Text

def isBlank (c : Char) : Bool :=
  let n := c.toNat
  (0x9 ≤ n && n ≤ 0xd) || n == 0x20 || n == 0x85 || n == 0xa0 || n == 0x1680 ||
    (0x2000 ≤ n && n ≤ 0x200a) || n == 0x2028 || n == 0x2029 || n == 0x202f || n == 0x205f ||
    n == 0x3000

def trimStart (cs : List Char) : List Char := cs.dropWhile isBlank

def trimEnd (cs : List Char) : List Char := (trimStart cs.reverse).reverse

def trim (cs : List Char) : List Char := trimEnd (trimStart cs)

theorem trimStart_cons (c : Char) (cs : List Char) :
    trimStart (c :: cs) = if isBlank c then trimStart cs else c :: cs := by
  simp [trimStart, List.dropWhile_cons]

theorem trimStart_append_of_blank {front : List Char} (h : ∀ c ∈ front, isBlank c)
    (cs : List Char) : trimStart (front ++ cs) = trimStart cs := by
  induction front with
  | nil => rfl
  | cons c front ih =>
    rw [List.cons_append, trimStart_cons, if_pos (h c (by simp))]
    exact ih fun d hd => h d (by simp [hd])

theorem trimStart_eq_nil_iff {cs : List Char} : trimStart cs = [] ↔ ∀ c ∈ cs, isBlank c := by
  induction cs with
  | nil => simp [trimStart]
  | cons c cs ih => by_cases hc : isBlank c <;> simp [trimStart_cons, hc, ih]

theorem trim_eq_nil_iff {cs : List Char} : trim cs = [] ↔ ∀ c ∈ cs, isBlank c := by
  induction cs with
  | nil => simp [trim, trimEnd, trimStart]
  | cons c cs ih =>
    by_cases hc : isBlank c
    · simpa [trim, trimStart_cons, hc] using ih
    · simp [trim, trimEnd, trimStart_cons, trimStart_eq_nil_iff, hc]

theorem trimEnd_append_of_blank (cs : List Char) {back : List Char} (h : ∀ c ∈ back, isBlank c) :
    trimEnd (cs ++ back) = trimEnd cs := by
  have reversed : ∀ c ∈ back.reverse, isBlank c := fun c hc => h c (List.mem_reverse.1 hc)
  rw [trimEnd, List.reverse_append, trimStart_append_of_blank reversed, trimEnd]

/-- Only blanks are trimmed. -/
theorem exists_blank_append_trimEnd (cs : List Char) :
    ∃ back, (∀ c ∈ back, isBlank c) ∧ trimEnd cs ++ back = cs := by
  refine ⟨(cs.reverse.takeWhile isBlank).reverse, ?_, ?_⟩
  · intro c inside
    exact List.all_eq_true.1 List.all_takeWhile c (List.mem_reverse.1 inside)
  · rw [trimEnd, trimStart, ← List.reverse_append, List.takeWhile_append_dropWhile,
      List.reverse_reverse]

theorem trim_append_of_blank (cs : List Char) {back : List Char} (h : ∀ c ∈ back, isBlank c) :
    trim (cs ++ back) = trim cs := by
  by_cases blank : ∀ c ∈ cs, isBlank c
  · have all : ∀ c ∈ cs ++ back, isBlank c :=
      fun c hc => (List.mem_append.1 hc).elim (blank c) (h c)
    rw [trim_eq_nil_iff.2 all, trim_eq_nil_iff.2 blank]
  · have nonempty : ¬ (trimStart cs).isEmpty := by
      simpa [trimStart_eq_nil_iff] using blank
    have start : trimStart (cs ++ back) = trimStart cs ++ back := by
      rw [trimStart, List.dropWhile_append]
      exact if_neg nonempty
    rw [trim, start, trimEnd_append_of_blank _ h, trim]

theorem first_trimStart (cs : List Char) : ∀ c ∈ (trimStart cs).head?, isBlank c = false := by
  intro c first
  have stop := List.head?_dropWhile_not isBlank cs
  rw [← trimStart, Option.mem_def.1 first] at stop
  exact stop

theorem trimStart_of_first {cs : List Char} (h : ∀ c ∈ cs.head?, isBlank c = false) :
    trimStart cs = cs := by
  cases cs with
  | nil => rfl
  | cons c rest => rw [trimStart_cons, h c rfl, if_neg Bool.false_ne_true]

/-- A text with a blank at neither end. -/
structure Bare (cs : List Char) : Prop where
  first : ∀ c ∈ cs.head?, isBlank c = false
  last : ∀ c ∈ cs.getLast?, isBlank c = false

theorem bare_of_no_blank {cs : List Char} (h : ∀ c ∈ cs, isBlank c = false) : Bare cs where
  first c first := h c (List.mem_of_head? first)
  last c last := h c (List.mem_of_getLast? last)

theorem bare_trim (cs : List Char) : Bare (trim cs) where
  first := by
    obtain ⟨back, -, whole⟩ := exists_blank_append_trimEnd (trimStart cs)
    intro c first
    apply first_trimStart cs c
    rw [← whole, ← trim, List.head?_append, Option.mem_def.1 first]
    rfl
  last := by
    rw [trim, trimEnd, List.getLast?_reverse]
    exact first_trimStart _

theorem trim_of_bare {cs : List Char} (h : Bare cs) : trim cs = cs := by
  have last : ∀ c ∈ cs.reverse.head?, isBlank c = false := by
    rw [List.head?_reverse]
    exact h.last
  rw [trim, trimStart_of_first h.first, trimEnd, trimStart_of_first last, List.reverse_reverse]

end EightBit.Text
