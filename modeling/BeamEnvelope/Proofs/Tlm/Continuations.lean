import BeamEnvelope.Proofs.Glps.Lexing
import BeamEnvelope.Proofs.Tlm.Lines
import BeamEnvelope.Tlm.Conversion

/-!
# Continued lines

A line of ASCII may be cut anywhere and continued behind the cut: the conversion stays the same, but
for the numbers of the lines that follow. A mark of continuation gives way to the next line before
the joined line is looked at again, so what the two parts end in does not matter, and neither does
what the line itself continues or is continued by.
-/

namespace BeamEnvelope.Tlm

open Text

variable {front line start a b : List UInt8} {n number : Nat}

/-- Whether nothing follows the last newline. -/
def EndsLine (bytes : List UInt8) : Prop := ∀ b, bytes.getLast? = some b → b = 10

/-- Bytes of ASCII that neither end a line nor are dropped at the end of one. -/
def IsPlain (line : List UInt8) : Prop := ∀ b ∈ line, b.toNat < 128 ∧ b ≠ 10 ∧ b ≠ 13

theorem EndsLine.of_cons {b : UInt8} (h : EndsLine (b :: front)) (hne : front ≠ []) :
    EndsLine front := by
  obtain ⟨c, rest, rfl⟩ := List.exists_cons_of_ne_nil hne
  intro d hd
  exact h d (by rw [List.getLast?_cons_cons, hd])

/-- What stands between two newlines is read apart from what is around it, and every newline ends
one line. -/
theorem splitLines_go_append (h : EndsLine front) (hne : front ≠ []) (start rest : List UInt8) :
    splitLines.go start (front ++ rest) = splitLines.go start front ++ splitLines rest ∧
      (splitLines.go start front).length = front.count 10 := by
  induction front generalizing start with
  | nil => exact absurd rfl hne
  | cons c front ih =>
    rw [List.cons_append, List.count_cons]
    by_cases hfront : front = []
    · subst hfront
      obtain rfl : c = 10 := h c rfl
      simp [splitLines, splitLines.go]
    · have hrest := ih (h.of_cons hfront) hfront
      by_cases hc : c = 10
      · subst hc
        rw [splitLines_go_newline, splitLines_go_newline, splitLines, splitLines, (hrest []).1]
        exact ⟨rfl, by simp [(hrest []).2]⟩
      · rw [splitLines_go_of_ne hc, splitLines_go_of_ne hc, (hrest _).1]
        exact ⟨rfl, by simp [(hrest _).2, hc]⟩

theorem splitLines_append (h : EndsLine front) (rest : List UInt8) :
    splitLines (front ++ rest) = splitLines front ++ splitLines rest := by
  by_cases hfront : front = []
  · subst hfront
    rfl
  · exact (splitLines_go_append h hfront [] rest).1

theorem length_splitLines (h : EndsLine front) : (splitLines front).length = front.count 10 := by
  by_cases hfront : front = []
  · subst hfront
    rfl
  · exact (splitLines_go_append h hfront [] []).2

theorem splitLines_go_line (hline : IsPlain line) (hstart : start.head? ≠ some 13)
    (rest : List UInt8) :
    splitLines.go start (line ++ 10 :: rest) = (start.reverse ++ line) :: splitLines rest := by
  induction line generalizing start with
  | nil =>
    have hended : ended start = start.reverse := by
      unfold ended
      split
      · exact absurd rfl hstart
      · rfl
    rw [List.nil_append, splitLines_go_newline, hended, List.append_nil]
  | cons b line ih =>
    obtain ⟨⟨-, hnewline, hreturn⟩, hline⟩ := List.forall_mem_cons.1 hline
    have hhead : (b :: start).head? ≠ some 13 := by simpa using hreturn
    rw [List.cons_append, splitLines_go_of_ne hnewline, ih hline hhead, List.reverse_cons,
      List.append_assoc, List.singleton_append]

theorem splitLines_line (hline : IsPlain line) (rest : List UInt8) :
    splitLines (line ++ 10 :: rest) = line :: splitLines rest :=
  splitLines_go_line hline (by decide) rest

/-- A line of ASCII is lower-cased byte by byte. -/
theorem lineText?_of_isPlain (h : IsPlain line) :
    lineText? line = some (line.map fun b => (Char.ofNat b.toNat).toLower) := by
  have hascii : ∀ c ∈ line.map fun b => Char.ofNat b.toNat, c.toNat < 128 := by
    refine List.forall_mem_map.2 fun b hb => ?_
    rw [toNat_ofNat_of_byte]
    exact (h b hb).1
  have hdecoded : String.fromUTF8? ⟨line.toArray⟩ = some (Glps.Bytes.ascii line) :=
    fromUTF8?_eq_some.2 (Glps.bytesOf_ascii fun b hb => (h b hb).1).symm
  rw [lineText?, hdecoded, Option.map_some, Glps.Bytes.ascii, String.toList_ofList,
    lowercase_ascii hascii, List.map_map]
  rfl

/-- The number of a line when the one numbered `n` has been cut in two. -/
def numberBehindCut (n number : Nat) : Nat := if n < number then number + 1 else number

def Joined.behindCut (n : Nat) (line : Joined) : Joined :=
  { line with number := numberBehindCut n line.number }

theorem continued?_append_mark (cs : List Char) : continued? (cs ++ ['&']) = some cs := by
  have hmark : isBlank '&' = false := by decide
  simp [continued?, trimEnd, hmark]

/-- All lines behind a cut move down by one. -/
theorem joinLines_behindCut (hnumber : n < number) (pending : Option (Nat × List Char))
    (lines : List (Option (List Char))) :
    joinLines (pending.map (Prod.map (numberBehindCut n) id)) (number + 1) lines =
      (joinLines pending number lines).map (Joined.behindCut n) := by
  induction lines generalizing pending number with
  | nil => cases pending <;> rfl
  | cons line? lines ih =>
    have hbegun : (pending.map (Prod.map (numberBehindCut n) id)).getD (number + 1, []) =
        Prod.map (numberBehindCut n) id (pending.getD (number, [])) := by
      cases pending with
      | none => simp [numberBehindCut, hnumber]
      | some p => rfl
    have hrest := @ih (number + 1) (Nat.lt_succ_of_lt hnumber)
    cases line? with
    | none =>
      rw [joinLines_cons_none, joinLines_cons_none, hbegun]
      rfl
    | some line =>
      rw [joinLines_cons_some, joinLines_cons_some, hbegun]
      simp only [Prod.map_fst, Prod.map_snd, id_eq]
      cases continued? ((pending.getD (number, [])).2 ++ line) with
      | some front => exact hrest (some ((pending.getD (number, [])).1, front))
      | none =>
        rw [List.map_cons, ← hrest none]
        rfl

/-- The mark of continuation gives way to the next line before anything is looked at again. -/
theorem joinLines_mark (pending : Option (Nat × List Char)) (number : Nat) (front : List Char)
    (lines : List (Option (List Char))) :
    joinLines pending number (some (front ++ ['&']) :: lines) =
      joinLines (some ((pending.getD (number, [])).1, (pending.getD (number, [])).2 ++ front))
        (number + 1) lines := by
  rw [joinLines_cons_some, ← List.append_assoc, continued?_append_mark]

/-- A line and its continuation are joined to the line that they are cut from. -/
theorem joinLines_cut {pending : Option (Nat × List Char)} (hpending : ∀ p ∈ pending, p.1 ≤ n)
    (front behind : List Char) (lines : List (Option (List Char))) :
    joinLines pending n (some (front ++ ['&']) :: some behind :: lines) =
      (joinLines pending n (some (front ++ behind) :: lines)).map (Joined.behindCut n) := by
  have hstart : numberBehindCut n (pending.getD (n, [])).1 = (pending.getD (n, [])).1 := by
    cases pending with
    | none => exact if_neg (Nat.lt_irrefl n)
    | some p => exact if_neg (Nat.not_lt.2 (hpending p rfl))
  rw [joinLines_mark, joinLines_cons_some, joinLines_cons_some, Option.getD_some, List.append_assoc]
  cases continued? ((pending.getD (n, [])).2 ++ (front ++ behind)) with
  | some more =>
    have hrest := joinLines_behindCut (Nat.lt_succ_self n)
      (some ((pending.getD (n, [])).1, more)) lines
    rw [Option.map_some, Prod.map_apply, hstart] at hrest
    exact hrest
  | none =>
    have hrest := joinLines_behindCut (Nat.lt_succ_self n) none lines
    rw [Option.map_none] at hrest
    simp only [List.map_cons, Joined.behindCut, hstart, hrest]

/-- Lines in front of a cut stay as they are. -/
theorem joinLines_append {pending : Option (Nat × List Char)}
    (hpending : ∀ p ∈ pending, p.1 ≤ number) {front lines lines' : List (Option (List Char))}
    (h : ∀ pending : Option (Nat × List Char), (∀ p ∈ pending, p.1 ≤ number + front.length) →
      joinLines pending (number + front.length) lines' =
        (joinLines pending (number + front.length) lines).map
          (Joined.behindCut (number + front.length))) :
    joinLines pending number (front ++ lines') =
      (joinLines pending number (front ++ lines)).map
        (Joined.behindCut (number + front.length)) := by
  induction front generalizing pending number with
  | nil => exact h pending hpending
  | cons line? front ih =>
    have hstart : (pending.getD (number, [])).1 ≤ number := by
      cases pending with
      | none => exact le_rfl
      | some p => exact hpending p rfl
    -- a line that starts in front of the cut keeps its number
    have hkept : numberBehindCut (number + (line? :: front).length) (pending.getD (number, [])).1 =
        (pending.getD (number, [])).1 := by
      refine if_neg (Nat.not_lt.2 ?_)
      omega
    have hcount : number + (line? :: front).length = number + 1 + front.length := by
      rw [List.length_cons]
      omega
    rw [hcount] at h hkept ⊢
    rw [List.cons_append, List.cons_append]
    cases line? with
    | none => simp [joinLines_cons_none, Joined.behindCut, hkept]
    | some line =>
      rw [joinLines_cons_some, joinLines_cons_some]
      cases continued? ((pending.getD (number, [])).2 ++ line) with
      | some more =>
        refine ih (fun p hp => ?_) h
        obtain rfl := Option.some.inj hp
        exact Nat.le_succ_of_le hstart
      | none =>
        rw [List.map_cons, ih (fun p hp => absurd hp (by simp)) h]
        simp only [Joined.behindCut, hkept]

def Failure.behindCut (n : Nat) : Failure → Failure
  | refused number cause => refused (numberBehindCut n number) cause
  | failure => failure

/-- The conversion with the numbers of lines as they are when the line numbered `n` has been cut in
two. -/
def Conversion.behindCut (n : Nat) (c : Conversion) : Conversion :=
  { c with failure? := c.failure?.map (Failure.behindCut n) }

theorem writeLines_behindCut (accepted : Accepted) (lines : List Joined) :
    writeLines accepted (lines.map (Joined.behindCut n)) =
      ((writeLines accepted lines).1, (writeLines accepted lines).2.1,
        (writeLines accepted lines).2.2.map (Failure.behindCut n)) := by
  induction lines generalizing accepted with
  | nil =>
    rw [List.map_nil, writeLines]
    split <;> rfl
  | cons line lines ih =>
    rw [List.map_cons, writeLines, writeLines, Joined.behindCut]
    cases line.text? with
    | none => rfl
    | some text =>
      dsimp only
      cases writeLine accepted text with
      | error cause => rfl
      | ok written => simp [ih]

theorem convert_of_readLines {bytes bytes' : List UInt8}
    (h : readLines bytes' = (readLines bytes).map (Joined.behindCut n)) :
    convert bytes' = (convert bytes).behindCut n := by
  rw [convert, convert, h, writeLines_behindCut]
  generalize writeLines [] (readLines bytes) = result
  obtain ⟨written, accepted, failure?⟩ := result
  cases failure? <;> rfl

/-- A line may be cut anywhere and continued behind the cut. Of the line itself it is asked that it
is ASCII without carriage returns and ends in a newline; the lines in front of it and behind it may
hold anything. -/
theorem convert_continued (hfront : EndsLine front) (ha : IsPlain a) (hb : IsPlain b)
    (rest : List UInt8) :
    convert (front ++ a ++ bytesOf "&\n" ++ b ++ bytesOf "\n" ++ rest) =
      (convert (front ++ a ++ b ++ bytesOf "\n" ++ rest)).behindCut (front.count 10 + 1) := by
  have hab : IsPlain (a ++ b) := fun x hx => (List.mem_append.1 hx).elim (ha x) (hb x)
  have hampersand : IsPlain (bytesOf "&") := List.forall_mem_singleton.2 (by decide)
  have hmark : IsPlain (a ++ bytesOf "&") := fun x hx =>
    (List.mem_append.1 hx).elim (ha x) (hampersand x)
  have hline : splitLines (front ++ a ++ b ++ bytesOf "\n" ++ rest) =
      splitLines front ++ (a ++ b) :: splitLines rest := by
    rw [← splitLines_line hab, ← splitLines_append hfront]
    simp [show bytesOf "\n" = [10] from rfl]
  have hcut : splitLines (front ++ a ++ bytesOf "&\n" ++ b ++ bytesOf "\n" ++ rest) =
      splitLines front ++ (a ++ bytesOf "&") :: b :: splitLines rest := by
    rw [← splitLines_line hb, ← splitLines_line hmark, ← splitLines_append hfront]
    simp [show bytesOf "\n" = [10] from rfl, show bytesOf "&" = [38] from rfl,
      show bytesOf "&\n" = [38, 10] from rfl]
  apply convert_of_readLines
  have hcount : front.count 10 + 1 = 1 + ((splitLines front).map lineText?).length := by
    rw [List.length_map, length_splitLines hfront, Nat.add_comm]
  rw [readLines, readLines, hline, hcut, hcount]
  simp only [List.map_append, List.map_cons]
  refine joinLines_append (fun p hp => absurd hp (by simp)) fun pending hpending => ?_
  rw [lineText?_of_isPlain hab, lineText?_of_isPlain hmark, lineText?_of_isPlain hb,
    List.map_append, List.map_append]
  exact joinLines_cut hpending _ _ _

/-- A line that is continued by a blank one is cut in front of its own mark, and a later line is
refused. -/
theorem convert_continued_markedLine :
    let file := bytesOf "drift d 1 .02\ndrift e 1 .02 & \n\nbump b 1\n"
    let cut := bytesOf "drift d 1 .02\ndrift e 1 &\n.02 & \n\nbump b 1\n"
    EndsLine (bytesOf "drift d 1 .02\n") ∧ IsPlain (bytesOf "drift e 1 ") ∧
    IsPlain (bytesOf ".02 & ") ∧ (convert file).names = ["d_1", "e_2"] ∧
    (convert file).failure? = some (.refused 4 (.unknownKeyword "bump")) ∧
    convert cut = { convert file with failure? := some (.refused 5 (.unknownKeyword "bump")) } := by
  have hfront : EndsLine (bytesOf "drift d 1 .02\n") := fun b hb => (Option.some.inj hb).symm
  have ha : IsPlain (bytesOf "drift e 1 ") := by
    unfold IsPlain
    decide +kernel
  have hb : IsPlain (bytesOf ".02 & ") := by
    unfold IsPlain
    decide +kernel
  have hfailure : (convert (bytesOf "drift d 1 .02\ndrift e 1 .02 & \n\nbump b 1\n")).failure? =
      some (.refused 4 (.unknownKeyword "bump")) := by decide +kernel
  refine ⟨hfront, ha, hb, by decide +kernel, hfailure, ?_⟩
  have hcut := convert_continued hfront ha hb (bytesOf "\nbump b 1\n")
  simp only [← bytesOf_append] at hcut
  refine Eq.trans hcut ?_
  have hfile : "drift d 1 .02\n" ++ "drift e 1 " ++ ".02 & " ++ "\n" ++ "\nbump b 1\n" =
      "drift d 1 .02\ndrift e 1 .02 & \n\nbump b 1\n" := by decide
  rw [hfile, Conversion.behindCut, hfailure]
  rfl

end BeamEnvelope.Tlm
