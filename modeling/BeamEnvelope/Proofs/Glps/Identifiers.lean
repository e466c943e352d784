import BeamEnvelope.Proofs.Glps.LexicalTokens

/-!
# Identifiers

A text is an identifier exactly if its bytes are read as one name and nothing else. Whether it is
read as a name with more bytes behind it depends on those up to the first one that no name contains:
a name goes on over a row of colons if a byte follows that may end it, and is complete in front of
them if none does.
-/

namespace BeamEnvelope.Glps

open Bytes

variable {b : UInt8} {bytes rest : List UInt8} {s : String}

/-- A byte that may end a name belongs to it; a colon does only if more of the name follows. -/
theorem leadingName_cons (b : UInt8) (bytes : List UInt8) : leadingName (b :: bytes) =
    if endsName b then b :: leadingName bytes
    else if b == colon then if leadingName bytes = [] then [] else b :: leadingName bytes
    else [] := by
  have hcolon (h : endsName b = true) : (b == colon) = false := by
    rw [beq_eq_false_iff_ne]
    rintro rfl
    exact absurd h (by decide)
  by_cases hname : isName b = true
  · rw [leadingName, List.takeWhile_cons, if_pos hname, List.reverse_cons, List.dropWhile_append]
    by_cases hnil : leadingName bytes = []
    · -- no byte behind ends a name
      have hdrop := List.reverse_eq_nil_iff.1 hnil
      rw [hdrop, List.isEmpty_nil, if_pos rfl, hnil]
      by_cases hends : endsName b = true
      · simp [hends, hcolon hends]
      · have hb : (b == colon) = true := by simpa [isName, hends] using hname
        simp [hends, hb]
    · have hne : ¬ ((bytes.takeWhile isName).reverse.dropWhile (· == colon)).isEmpty = true :=
        fun h => hnil (List.reverse_eq_nil_iff.2 (List.isEmpty_iff.1 h))
      rw [if_neg hne, List.reverse_append, List.reverse_singleton, List.singleton_append,
        ← leadingName, if_neg hnil]
      by_cases hends : endsName b = true
      · rw [if_pos hends]
      · have hb : (b == colon) = true := by simpa [isName, hends] using hname
        rw [if_neg hends, if_pos hb]
  · rw [isName, Bool.not_eq_true, Bool.or_eq_false_iff] at hname
    rw [leadingName, List.takeWhile_cons, if_neg (by simp [isName, hname]), hname.1, hname.2]
    rfl

theorem take_length_leadingName (bytes : List UInt8) :
    bytes.take (leadingName bytes).length = leadingName bytes := by
  induction bytes with
  | nil => rfl
  | cons b bytes ih =>
    rw [leadingName_cons]
    split_ifs
    · rw [List.length_cons, List.take_succ_cons, ih]
    · rfl
    · rw [List.length_cons, List.take_succ_cons, ih]
    · rfl

theorem isName_of_mem_leadingName : ∀ x ∈ leadingName bytes, isName x = true := by
  intro x hx
  rw [leadingName, List.mem_reverse] at hx
  exact List.mem_takeWhile_imp (List.mem_reverse.1 ((List.dropWhile_suffix _).subset hx))

theorem leadingName_append_eq_iff (hname : ∀ b ∈ bytes, isName b = true)
    (hlast : bytes.getLast? ≠ some colon) :
    leadingName (bytes ++ rest) = bytes ↔ ∀ b ∈ rest.takeWhile isName, b = colon := by
  constructor
  · intro h b hb
    rw [leadingName, List.takeWhile_append_of_pos hname] at h
    -- what is dropped from the row of name bytes are those of `rest`
    have hsplit := congrArg List.reverse (List.takeWhile_append_dropWhile
      (p := fun b => b == colon) (l := (bytes ++ rest.takeWhile isName).reverse))
    rw [List.reverse_append, h, List.reverse_reverse, List.append_cancel_left_eq] at hsplit
    rw [← hsplit, List.mem_reverse] at hb
    have hcolon := List.mem_takeWhile_imp hb
    exact beq_iff_eq.1 hcolon
  · exact leadingName_append hname hlast

/-- What is met where the bytes of an identifier stand: a name, and it starts with them. -/
theorem head?_identifier_append (h : isIdentifier s = true) (rest : List UInt8) :
    (Stream.ofSource (bytesOf s ++ rest)).head? =
      some (.name (ascii (leadingName (bytesOf s ++ rest)))) := by
  obtain ⟨b, taken, hs, hb, -, -⟩ := isIdentifier_iff.1 h
  obtain ⟨hblank, hhash⟩ := not_blank_of_startsName hb
  rw [hs, List.cons_append, Stream.ofSource, ofBytes_cons hblank hhash, scan, if_pos hb]
  rfl

/-- An identifier is met as a name of its own exactly if only colons stand in front of the first
byte behind it that no name contains. -/
theorem head?_append_eq_name_iff (h : isIdentifier s = true) :
    (Stream.ofSource (bytesOf s ++ rest)).head? = some (.name s) ↔
      ∀ b ∈ rest.takeWhile isName, b = colon := by
  have hname := isName_of_mem_bytesOf h
  have hlast : (bytesOf s).getLast? ≠ some colon := by
    obtain ⟨b, taken, hs, -, -, hlast⟩ := isIdentifier_iff.1 h
    rwa [hs]
  have hascii : ascii (bytesOf s) = s := ascii_bytesOf fun b hb => toNat_lt_of_isName (hname b hb)
  rw [head?_identifier_append h, ← leadingName_append_eq_iff hname hlast]
  constructor
  · intro heq
    have hread : ascii (leadingName (bytesOf s ++ rest)) = s := Token.name.inj (Option.some.inj heq)
    have hleading : ∀ b ∈ leadingName (bytesOf s ++ rest), b.toNat < 128 :=
      fun b hb => toNat_lt_of_isName (isName_of_mem_leadingName b hb)
    rw [← bytesOf_ascii hleading, hread]
  · intro heq
    rw [heq, hascii]

/-- Nothing follows a name, or a byte that no name contains, or a colon with a space behind it. -/
inductive ClosesName : List UInt8 → Prop
  | nil : ClosesName []
  | other {b : UInt8} {rest : List UInt8} (h : isName b = false) : ClosesName (b :: rest)
  | spacedColon (rest : List UInt8) : ClosesName (colon :: 32 :: rest)

theorem ClosesName.eq_colon (h : ClosesName rest) : ∀ b ∈ rest.takeWhile isName, b = colon := by
  cases h with
  | nil => simp
  | other h => simp [h]
  | spacedColon rest =>
    intro b hb
    exact List.mem_singleton.1 hb

/-- Whether the check of names and the reading of names agree on a text. -/
structure IsReadAsChecked (s : String) : Prop where
  /-- An identifier is read as one name, and nothing else is. -/
  alone : isIdentifier s = true ↔ (Stream.ofSource (bytesOf s)).tokens? = some [.name s]
  /-- An identifier with something behind it that ends a name is the first token. -/
  followed : isIdentifier s = true → ∀ rest, ClosesName rest →
    (Stream.ofSource (bytesOf s ++ rest)).head? = some (.name s)
  /-- Where it is the first token, only colons stand between it and a byte that ends a name. -/
  extended : isIdentifier s = true → ∀ rest,
    (Stream.ofSource (bytesOf s ++ rest)).head? = some (.name s) →
    ∀ b ∈ rest.takeWhile isName, b = colon

theorem isReadAsChecked (s : String) : IsReadAsChecked s where
  alone := by
    constructor
    · intro h
      have hlexes : Lexes (bytesOf s ++ []) [.name s] [] := lexes_name h (by simp)
      obtain ⟨pos, hbegins⟩ := hlexes {}
      rw [List.append_nil, ofBytes_nil] at hbegins
      exact Stream.tokens?_eq_some.2 ⟨pos, hbegins⟩
    · intro h
      obtain ⟨pos, hbegins⟩ := Stream.tokens?_eq_some.1 h
      exact isLexical_of_begins hbegins (.name s) List.mem_cons_self
  followed h _ hrest := (head?_append_eq_name_iff h).2 hrest.eq_colon
  extended h _ := (head?_append_eq_name_iff h).1

/-- A colon may stand in a name, not at its end. -/
example : isIdentifier "ls1_ca01:sol1" = true ∧ isIdentifier "x:" = false ∧
    isIdentifier "é" = false := by
  decide

end BeamEnvelope.Glps
