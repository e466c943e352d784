import BeamEnvelope.Proofs.Result
import BeamEnvelope.Reader

/-!
# What readers read

A reader that succeeds takes a value from the front of an input and leaves a rest. Stated as a
relation between the three, the readers made of other readers read what their parts read one after
the other.
-/

namespace BeamEnvelope.Reader

variable {σ ε α β : Type} [Input σ]

/-- The reader succeeds on `s` with the value `a` and leaves `rest`. -/
def Reads (p : Reader σ ε α) (s : σ) (a : α) (rest : σ) : Prop :=
  ∃ r : Reading α s, p s = .ok r ∧ r.value = a ∧ r.rest = rest

theorem reads_of_eq {p : Reader σ ε α} {s : σ} {r : Reading α s} (h : p s = .ok r) :
    p.Reads s r.value r.rest := ⟨r, h, rfl, rfl⟩

theorem Reads.size_lt {p : Reader σ ε α} {s rest : σ} {a : α} (h : p.Reads s a rest) :
    Input.size rest < Input.size s := by
  obtain ⟨r, _, _, rfl⟩ := h
  exact r.shorter

theorem reads_bind {p : Reader σ ε α} {f : α → Reader σ ε β} {s rest : σ} {b : β} :
    (p.bind f).Reads s b rest ↔ ∃ a mid, p.Reads s a mid ∧ (f a).Reads mid b rest := by
  constructor
  · rintro ⟨r, hr, rfl, rfl⟩
    obtain ⟨a, ha, hr⟩ := bind_eq_ok.1 hr
    obtain ⟨b, hb, hr⟩ := bind_eq_ok.1 hr
    cases hr
    exact ⟨a.value, a.rest, reads_of_eq ha, reads_of_eq hb⟩
  · rintro ⟨_, _, ⟨a, ha, rfl, rfl⟩, ⟨b, hb, rfl, rfl⟩⟩
    refine ⟨⟨b.value, b.rest, Nat.lt_trans b.shorter a.shorter⟩, ?_, rfl, rfl⟩
    rw [Reader.bind, bind_of_eq_ok ha, bind_of_eq_ok hb]
    rfl

theorem reads_check {p : Reader σ ε α} {f : α → Except ε β} {s rest : σ} {b : β} :
    (p.check f).Reads s b rest ↔ ∃ a, p.Reads s a rest ∧ f a = .ok b := by
  constructor
  · rintro ⟨r, hr, rfl, rfl⟩
    obtain ⟨a, ha, hr⟩ := bind_eq_ok.1 hr
    obtain ⟨b, hb, hr⟩ := bind_eq_ok.1 hr
    cases hr
    exact ⟨a.value, reads_of_eq ha, hb⟩
  · rintro ⟨_, ⟨a, ha, rfl, rfl⟩, hb⟩
    refine ⟨⟨b, a.rest, a.shorter⟩, ?_, rfl, rfl⟩
    rw [Reader.check, bind_of_eq_ok ha, bind_of_eq_ok hb]
    rfl

/-- A row of items read one after another: the first argument is the state in front of an item, the
third the state behind the last one. -/
inductive Row (item : α → Reader σ ε α) (separator : Reader σ ε Unit) (ahead : σ → Bool) :
    α → σ → α → σ → Prop
  | last {a b : α} {s rest : σ} (one : (item a).Reads s b rest) (stop : ahead rest = false) :
    Row item separator ahead a s b rest
  | more {a b c : α} {s mid next rest : σ} (one : (item a).Reads s b mid)
    (go : ahead mid = true) (gap : separator.Reads mid () next)
    (others : Row item separator ahead b next c rest) : Row item separator ahead a s c rest

theorem reads_separated {item : α → Reader σ ε α} {separator : Reader σ ε Unit}
    {ahead : σ → Bool} {a b : α} {s rest : σ} :
    (separated item separator ahead a).Reads s b rest ↔ Row item separator ahead a s b rest := by
  constructor
  · induction hn : Input.size s using Nat.strongRecOn generalizing a s with
    | ind n ih =>
      rintro ⟨r, hr, rfl, rfl⟩
      rw [separated] at hr
      obtain ⟨one, ho, hr⟩ := bind_eq_ok.1 hr
      split at hr
      · rename_i go
        obtain ⟨gap, hg, hr⟩ := bind_eq_ok.1 hr
        obtain ⟨more, hm, hr⟩ := bind_eq_ok.1 hr
        cases hr
        have hlt := Nat.lt_trans gap.shorter one.shorter
        exact .more (reads_of_eq ho) go (reads_of_eq hg)
          (ih _ (hn ▸ hlt) rfl (reads_of_eq hm))
      · rename_i stop
        cases hr
        exact .last (reads_of_eq ho) (by simpa using stop)
  · intro h
    induction h with
    | last one stop =>
      obtain ⟨one, ho, rfl, rfl⟩ := one
      refine ⟨one, ?_, rfl, rfl⟩
      rw [separated, bind_of_eq_ok ho, if_neg (by simp [stop])]
      rfl
    | more one go gap _ ih =>
      obtain ⟨one, ho, rfl, rfl⟩ := one
      obtain ⟨gap, hg, _, rfl⟩ := gap
      obtain ⟨more, hm, rfl, rfl⟩ := ih
      refine ⟨⟨more.value, more.rest, Nat.lt_trans more.shorter
        (Nat.lt_trans gap.shorter one.shorter)⟩, ?_, rfl, rfl⟩
      rw [separated, bind_of_eq_ok ho, if_pos go, bind_of_eq_ok hg, bind_of_eq_ok hm]
      rfl

variable {p : Reader σ ε α} {s mid rest : σ} {a b : α} {e : ε}

theorem Reads.bind_eq_error {f : α → Reader σ ε β} (h : p.Reads s a mid)
    (hf : f a mid = .error e) : (p.bind f) s = .error e := by
  obtain ⟨r, hr, rfl, rfl⟩ := h
  rw [Reader.bind, bind_of_eq_ok hr, bind_of_eq_error hf]

theorem bind_eq_error {f : α → Reader σ ε β} (h : p s = .error e) : (p.bind f) s = .error e :=
  bind_of_eq_error h _

theorem Reads.check_eq_error {f : α → Except ε β} (h : p.Reads s a rest) (hf : f a = .error e) :
    (p.check f) s = .error e := by
  obtain ⟨r, hr, rfl, rfl⟩ := h
  rw [Reader.check, bind_of_eq_ok hr, bind_of_eq_error hf]

variable {item : α → Reader σ ε α} {separator : Reader σ ε Unit} {ahead : σ → Bool} {next : σ}

theorem separated_eq_error (h : item a s = .error e) :
    separated item separator ahead a s = .error e := by
  rw [separated, bind_of_eq_error h]

theorem separated_eq_error_of_reads (one : (item a).Reads s b mid) (go : ahead mid = true)
    (gap : separator.Reads mid () next) (h : separated item separator ahead b next = .error e) :
    separated item separator ahead a s = .error e := by
  obtain ⟨one, ho, rfl, rfl⟩ := one
  obtain ⟨gap, hg, _, rfl⟩ := gap
  rw [separated, bind_of_eq_ok ho, if_pos go, bind_of_eq_ok hg, bind_of_eq_error h]

end BeamEnvelope.Reader
