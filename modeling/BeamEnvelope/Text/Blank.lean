/-!
# Blanks

The characters with the Unicode property White_Space, and the words of a text between them.
-/

namespace BeamEnvelope.Text

def isBlank (c : Char) : Bool :=
  (9 ≤ c.toNat && c.toNat ≤ 13) || c == ' ' || c == '\u0085' || c == '\u00a0' || c == '\u1680' ||
    (0x2000 ≤ c.toNat && c.toNat ≤ 0x200a) || c == '\u2028' || c == '\u2029' || c == '\u202f' ||
    c == '\u205f' || c == '\u3000'

def trimStart (cs : List Char) : List Char := cs.dropWhile isBlank

def trimEnd (cs : List Char) : List Char := (cs.reverse.dropWhile isBlank).reverse

def trim (cs : List Char) : List Char := trimEnd (trimStart cs)

/-- The maximal runs without blanks. -/
def words (cs : List Char) : List (List Char) :=
  match _h : trimStart cs with
  | [] => []
  | c :: rest =>
    (c :: rest.takeWhile (!isBlank ·)) :: words (rest.dropWhile (!isBlank ·))
termination_by cs.length
decreasing_by
  have trimmed := (List.dropWhile_suffix (l := cs) isBlank).length_le
  have behind := (List.dropWhile_suffix (l := rest) (!isBlank ·)).length_le
  rw [trimStart] at _h
  rw [_h, List.length_cons] at trimmed
  omega

end BeamEnvelope.Text
