import TemporalCheck.Proofs.Formula.Occurrence

/-! The text of a formula can be read in one way only. It opens with a character that tells the
connective, and it is over where a reader takes it to be over, unless a digit follows. A conjunction
or a disjunction shows its sign between two operands, so it must have two. -/
namespace TemporalCheck.Formula

def Branching (f : Formula) : Prop :=
  ∀ fs, .and fs ∈ f.subformulas ∨ .or fs ∈ f.subformulas → 2 ≤ fs.length

def spelling (f : Formula) : List Char := f.text.toList

/-- What may follow a formula: nothing that a number at its end would swallow. -/
def Ends (rest : List Char) : Prop := ∀ c ∈ rest.head?, c.isDigit = false

/-- The text of the formula is followed to its end, whatever else was written. -/
def Readable (f : Formula) : Prop := ∀ ⦃g rest rest'⦄, g.Branching → Ends rest → Ends rest' →
  f.spelling ++ rest = g.spelling ++ rest' → f = g ∧ rest = rest'

variable {f g h : Formula} {fs gs : List Formula} {sign sign' rest rest' : List Char}

section Marks

inductive Marks : List Char → Formula → Formula → Prop where
  | not (f : Formula) : Marks "~".toList f (.not f)
  | always (f : Formula) : Marks "[]".toList f (.always f)
  | eventually (f : Formula) : Marks "<>".toList f (.eventually f)
  | next (f : Formula) : Marks "()".toList f (.next f)

variable {mark : List Char}

theorem Marks.spelling (marks : Marks mark f g) : g.spelling = mark ++ f.spelling := by
  cases marks <;> simp [Formula.spelling, text]

theorem Marks.children (marks : Marks mark f g) : g.children = [f] := by
  cases marks <;> rfl

theorem Marks.unique (marks : Marks mark f g) (marks' : Marks mark f h) : g = h := by
  cases marks <;> cases marks' <;> rfl

end Marks

section Joins

inductive Joins : List Char → List Formula → Formula → Prop where
  | and (fs : List Formula) : Joins " /\\ ".toList fs (.and fs)
  | or (fs : List Formula) : Joins " \\/ ".toList fs (.or fs)

def signed (sign : List Char) (fs : List Formula) : List Char :=
  fs.flatMap fun f => sign ++ f.spelling

theorem signed_cons (sign : List Char) (f : Formula) (fs : List Formula) :
    signed sign (f :: fs) = sign ++ (f.spelling ++ signed sign fs) := by
  rw [signed, List.flatMap_cons, List.append_assoc, ← signed]

theorem intercalate_texts (sign : List Char) (first : Formula) (fs : List Formula) :
    sign.intercalate ((texts (first :: fs)).map String.toList) =
      first.spelling ++ signed sign fs := by
  induction fs generalizing first with
  | nil => simp [texts, signed, spelling]
  | cons second fs ih =>
    have later := ih second
    rw [texts, List.map_cons] at later
    rw [texts, texts, List.map_cons, List.map_cons, List.intercalate_cons_cons, later, signed_cons]
    simp [spelling]

theorem Joins.spelling (joins : Joins sign (f :: fs) g) :
    g.spelling = '(' :: (f.spelling ++ (signed sign fs ++ [')'])) := by
  cases joins <;> simp [Formula.spelling, text, intercalate_texts]

theorem Joins.children (joins : Joins sign fs f) : f.children = fs := by
  cases joins <;> rfl

theorem Joins.length (joins : Joins sign fs f) : sign.length = 4 := by
  cases joins <;> rfl

theorem Joins.unique (joins : Joins sign fs f) (joins' : Joins sign fs g) : f = g := by
  cases joins <;> cases joins' <;> rfl

theorem Joins.exists_operands (joins : Joins sign fs f) (branching : f.Branching) :
    ∃ first second others, fs = first :: second :: others := by
  have two : 2 ≤ fs.length := by
    cases joins with
    | and => exact branching fs (.inl (mem_subformulas_children.mpr (.inl rfl)))
    | or => exact branching fs (.inr (mem_subformulas_children.mpr (.inl rfl)))
  match fs, two with
  | first :: second :: others, _ => exact ⟨first, second, others, rfl⟩

theorem Branching.child (branching : f.Branching) : ∀ g ∈ f.children, g.Branching := by
  intro g child fs inside
  have within {h : Formula} (member : h ∈ g.subformulas) : h ∈ f.subformulas :=
    mem_subformulas_children.mpr (.inr ⟨g, child, member⟩)
  exact branching fs (inside.imp within within)

end Joins

section Opening

def opening : Formula → Char
  | .const true => 'T'
  | .const false => 'F'
  | .atom (.state _) => 'S'
  | .atom (.action _) => 'A'
  | .not _ => '~'
  | .always _ => '['
  | .eventually _ => '<'
  | .and _ | .or _ | .next _ => '('

theorem opening_ne (f : Formula) : f.opening ≠ ')' := by
  rcases f with (_ | _) | (_ | _) | _ | _ | _ | _ | _ | _ <;> simp [opening]

theorem spelling_state (p : PredicateId) :
    (atom (.state p)).spelling = 'S' :: (toString p).toList := by
  simp [spelling, text, Atom.text]

theorem spelling_action (p : PredicateId) :
    (atom (.action p)).spelling = 'A' :: (toString p).toList := by
  simp [spelling, text, Atom.text]

theorem exists_opening (branching : f.Branching) : ∃ tail, f.spelling = f.opening :: tail := by
  have junction {sign fs} (joins : Joins sign fs f) : ∃ tail, f.spelling = '(' :: tail := by
    obtain ⟨first, second, others, rfl⟩ := joins.exists_operands branching
    exact ⟨_, joins.spelling⟩
  cases f with
  | const b => cases b <;> exact ⟨_, rfl⟩
  | atom a =>
    cases a with
    | state p => exact ⟨_, spelling_state p⟩
    | action p => exact ⟨_, spelling_action p⟩
  | and fs => exact junction (.and fs)
  | or fs => exact junction (.or fs)
  | not f => exact ⟨_, (Marks.not f).spelling⟩
  | always f => exact ⟨_, (Marks.always f).spelling⟩
  | eventually f => exact ⟨_, (Marks.eventually f).spelling⟩
  | next f => exact ⟨_, (Marks.next f).spelling⟩

/-- Two formulas whose texts may begin alike. -/
inductive Akin : Formula → Formula → Prop where
  | const (b : Bool) : Akin (.const b) (.const b)
  | state (p q : PredicateId) : Akin (.atom (.state p)) (.atom (.state q))
  | action (p q : PredicateId) : Akin (.atom (.action p)) (.atom (.action q))
  | marked {mark : List Char} {f f' g g' : Formula} (left : Marks mark f' f)
    (right : Marks mark g' g) : Akin f g
  | joined {sign sign' : List Char} {fs gs : List Formula} {f g : Formula} (left : Joins sign fs f)
    (right : Joins sign' gs g) : Akin f g
  | joinedNext {sign : List Char} {fs : List Formula} {f : Formula} (left : Joins sign fs f)
    (g : Formula) : Akin f (.next g)
  | nextJoined {sign : List Char} {gs : List Formula} {g : Formula} (f : Formula)
    (right : Joins sign gs g) : Akin (.next f) g

theorem akin_of_opening (openings : f.opening = g.opening) : Akin f g := by
  -- two formulas that match no constructor begin with different characters
  rcases f with (_ | _) | (_ | _) | _ | _ | _ | _ | _ | _ <;>
    rcases g with (_ | _) | (_ | _) | _ | _ | _ | _ | _ | _ <;>
    first
    | exact .const _
    | exact .state _ _
    | exact .action _ _
    | exact .marked (by constructor) (by constructor)
    | exact .joined (by constructor) (by constructor)
    | exact .joinedNext (by constructor) _
    | exact .nextJoined _ (by constructor)
    | simp [opening] at openings

end Opening

section Readable

/-- The digits of a number are all that come before the rest. -/
theorem number_readable {p q : Nat} (ends : Ends rest) (ends' : Ends rest')
    (same : (toString p).toList ++ rest = (toString q).toList ++ rest') : p = q ∧ rest = rest' := by
  have digits (n : Nat) : (toString n).toList = Nat.toDigits 10 n := by
    rw [Nat.toString_eq_ofList_toDigits, String.toList_ofList]
  have value (n : Nat) : Nat.ofDigitChars 10 (Nat.toDigits 10 n) 0 = n :=
    Nat.ofDigitChars_toDigits (by decide) (by decide)
  have taken (n : Nat) {rest : List Char} (ends : Ends rest) :
      (Nat.toDigits 10 n ++ rest).takeWhile Char.isDigit = Nat.toDigits 10 n := by
    rw [List.takeWhile_append_of_pos fun c member =>
      Nat.isDigit_of_mem_toDigits (by decide) (by decide) member]
    cases rest with
    | nil => simp
    | cons c rest => simp [ends c rfl]
  rw [digits, digits] at same
  have written : Nat.toDigits 10 p = Nat.toDigits 10 q := by
    rw [← taken p ends, same, taken q ends']
  exact ⟨by rw [← value p, written, value q], List.append_cancel_left (written ▸ same)⟩

theorem ends_signed (joins : Joins sign gs g) : Ends (signed sign fs ++ ')' :: rest) := by
  intro c first
  cases fs with
  | nil =>
    obtain rfl : ')' = c := by simpa [signed] using first
    rfl
  | cons f fs =>
    obtain rfl : ' ' = c := by cases joins <;> simpa [signed] using first
    rfl

/-- A sign or the closing parenthesis tells whether another operand follows. -/
theorem signed_readable (left : Joins sign fs f) (right : Joins sign' gs g) {hs ks : List Formula}
    (readable : ∀ h ∈ hs, h.Readable) (branching : ∀ k ∈ ks, k.Branching)
    (same : signed sign hs ++ ')' :: rest = signed sign' ks ++ ')' :: rest') :
    hs = ks ∧ (hs ≠ [] → sign = sign') ∧ rest = rest' := by
  have lengths : sign.length = sign'.length := left.length.trans right.length.symm
  induction hs generalizing ks with
  | nil =>
    cases ks with
    | nil => simpa [signed] using same
    | cons k ks => cases right <;> simp [signed] at same
  | cons h hs ih =>
    cases ks with
    | nil => cases left <;> simp [signed] at same
    | cons k ks =>
      rw [List.forall_mem_cons] at readable branching
      simp only [signed_cons, List.append_assoc] at same
      obtain ⟨signs, operands⟩ := List.append_inj same lengths
      obtain ⟨rfl, later⟩ := readable.1 branching.1 (ends_signed left) (ends_signed right) operands
      obtain ⟨rfl, -, rests⟩ := ih readable.2 branching.2 later
      exact ⟨rfl, fun _ => signs, rests⟩

theorem joined_readable (left : Joins sign fs f) (right : Joins sign' gs g)
    (readable : ∀ h ∈ f.children, h.Readable) (branching : f.Branching) (branching' : g.Branching)
    (same : f.spelling ++ rest = g.spelling ++ rest') : f = g ∧ rest = rest' := by
  have inside := branching'.child
  obtain ⟨f₁, f₂, fs, rfl⟩ := left.exists_operands branching
  obtain ⟨g₁, g₂, gs, rfl⟩ := right.exists_operands branching'
  rw [left.children, List.forall_mem_cons] at readable
  rw [right.children, List.forall_mem_cons] at inside
  rw [left.spelling, right.spelling] at same
  simp only [List.cons_append, List.append_assoc, List.nil_append, List.cons.injEq,
    true_and] at same
  obtain ⟨rfl, later⟩ := readable.1 inside.1 (ends_signed left) (ends_signed right) same
  obtain ⟨others, signs, rests⟩ := signed_readable left right readable.2 inside.2 later
  obtain rfl := signs (List.cons_ne_nil f₂ fs)
  exact ⟨left.unique (others ▸ right), rests⟩

/-- The operand after an opening parenthesis is not taken for the closing one. -/
theorem joined_ne_next (joins : Joins sign fs f) (branching : f.Branching) :
    f.spelling ++ rest ≠ (next g).spelling ++ rest' := by
  obtain ⟨first, second, others, rfl⟩ := joins.exists_operands branching
  have inside := branching.child first (joins.children ▸ List.mem_cons_self)
  obtain ⟨tail, shown⟩ := exists_opening inside
  rw [joins.spelling, (Marks.next g).spelling, shown]
  intro same
  exact opening_ne first (List.cons.inj (List.cons.inj same).2).1

theorem readable_of_branching (branching : f.Branching) : f.Readable := by
  -- what follows an operand begins with a sign or a parenthesis, never with a digit
  induction f using induction_children with
  | step f ih =>
    intro g rest rest' branching' ends ends' same
    have readable : ∀ h ∈ f.children, h.Readable :=
      fun h child => ih h child (branching.child h child)
    have kin : Akin f g := by
      obtain ⟨tail, shown⟩ := exists_opening branching
      obtain ⟨tail', shown'⟩ := exists_opening branching'
      rw [shown, shown'] at same
      exact akin_of_opening (List.cons.inj same).1
    cases kin with
    | const b => exact ⟨rfl, List.append_cancel_left same⟩
    | state p q =>
      rw [spelling_state, spelling_state] at same
      obtain ⟨rfl, rests⟩ := number_readable ends ends' (List.cons.inj same).2
      exact ⟨rfl, rests⟩
    | action p q =>
      rw [spelling_action, spelling_action] at same
      obtain ⟨rfl, rests⟩ := number_readable ends ends' (List.cons.inj same).2
      exact ⟨rfl, rests⟩
    | marked left right =>
      have inside := branching'.child
      rw [left.children, List.forall_mem_singleton] at readable
      rw [right.children, List.forall_mem_singleton] at inside
      rw [left.spelling, right.spelling, List.append_assoc, List.append_assoc] at same
      obtain ⟨rfl, rests⟩ := readable inside ends ends' (List.append_cancel_left same)
      exact ⟨left.unique right, rests⟩
    | joined left right => exact joined_readable left right readable branching branching' same
    | joinedNext left g => exact absurd same (joined_ne_next left branching)
    | nextJoined f right => exact absurd same.symm (joined_ne_next right branching')

end Readable

/-- Formulas whose conjunctions and disjunctions all have two operands or more are told apart by
their texts. -/
theorem text_unambiguous (f g : Formula) (branching : f.Branching) (branching' : g.Branching)
    (same : f.text = g.text) : f = g := by
  have ends : Ends [] := by simp [Ends]
  have spelled : f.spelling ++ [] = g.spelling ++ [] := by rw [spelling, spelling, same]
  exact (readable_of_branching branching branching' ends ends spelled).1

/-- A request is written like the disjunction that it stands for. -/
theorem text_unambiguous_request :
    let request := leadsTo (.atom (.state 1)) (.next (.and [.atom (.action 2), .const true]))
    let spelled := always (.or [.not (.atom (.state 1)),
      .eventually (.next (.and [.atom (.action 2), .const true]))])
    request.text = "[](~S1 \\/ <>()(A2 /\\ TRUE))" ∧ request.Branching ∧ spelled.Branching ∧
      request.text = spelled.text ∧ request = spelled := by
  have branching : (always (.or [.not (.atom (.state 1)),
      .eventually (.next (.and [.atom (.action 2), .const true]))])).Branching := by
    simp [Branching, subformulas, allSubformulas]
  have shown : (leadsTo (.atom (.state 1)) (.next (.and [.atom (.action 2), .const true]))).text =
      "[](~S1 \\/ <>()(A2 /\\ TRUE))" := by
    decide +kernel
  have shown' : (always (.or [.not (.atom (.state 1)),
      .eventually (.next (.and [.atom (.action 2), .const true]))])).text =
      "[](~S1 \\/ <>()(A2 /\\ TRUE))" := by
    decide +kernel
  have same := shown.trans shown'.symm
  exact ⟨shown, branching, branching, same, text_unambiguous _ _ branching branching same⟩

/-- Without operands a conjunction cannot be told from a disjunction. -/
example : (and []).text = (or []).text := rfl

end TemporalCheck.Formula
