import AffineCalls.Proofs.TupleSet.Chain
import AffineCalls.Proofs.TupleSet.Coordinate

/-!
# The reader of sets accepts the grammar of sets

The coordinates and the chains of a set are lists between marks, so they are read as their
forms say. It follows that a text is read as a set exactly when it spells a form of the
set.
-/

namespace AffineCalls

open Reader (taken_bind_eq_some taken_bind_of_eq_none taken_orElse_eq_some
  taken_inRange_eq_some taken_blanks_bind taken_literal_eq_some taken_literal_behind_gap)

/-- What is read as the constraints of a set, maybe none, is spelled by chains. -/
theorem ChainForm.spelledBody_of_taken {cs mid rest : List Char} {constraints : List Constraint}
    (h : (Constraint.listReader <|> pure []).taken (cs.dropWhile Text.isSeparator) =
      some (constraints, mid))
    (hend : Text.Skip mid ('\x7d' :: rest)) :
    ∃ body chains, ChainForm.SpelledBody body cs rest ∧
      (body.getD []).mapM ChainForm.eval = .ok chains ∧ chains.flatten = constraints := by
  rcases taken_orElse_eq_some.mp h with h | ⟨_, h⟩
  · unfold Constraint.listReader at h
    obtain ⟨_, cs₁, hcolon, h⟩ := taken_bind_eq_some.mp h
    rw [taken_blanks_bind] at h
    obtain ⟨chains, cs₂, hchains, h⟩ := taken_bind_eq_some.mp h
    cases h
    have hcolon := (taken_literal_behind_gap rfl rfl).mp hcolon
    obtain ⟨body, hbody, hvalues⟩ := ChainForm.reads.sound_list ChainForm.marks rfl hchains hend
    exact ⟨some body, chains, ⟨cs₁, hcolon, hbody⟩, hvalues, rfl⟩
  · cases h
    exact ⟨none, [], (Text.skip_dropWhile cs).trans hend, rfl, rfl⟩

/-- The constraints of a set are read as what their forms stand for. -/
theorem ChainForm.taken_of_spelledBody {body : Option (List ChainForm)} {cs rest : List Char}
    {chains : List (List Constraint)} (h : ChainForm.SpelledBody body cs rest)
    (hvalues : (body.getD []).mapM ChainForm.eval = .ok chains) :
    ∃ mid, (Constraint.listReader <|> pure []).taken (cs.dropWhile Text.isSeparator) =
      some (chains.flatten, mid) ∧ Text.Skip mid ('\x7d' :: rest) := by
  cases body with
  | none =>
    cases hvalues
    have hcs : cs.dropWhile Text.isSeparator = '\x7d' :: rest :=
      Text.Skip.dropWhile_eq_of_stops h (Text.stops_cons.mpr (by decide))
    have hcolon : (Reader.literal ":").taken ('\x7d' :: rest) = none :=
      Text.taken_literal_eq_none rfl fun ds hds => absurd (List.cons.inj hds).1 (by decide)
    rw [hcs]
    exact ⟨_, taken_orElse_eq_some.mpr (.inr ⟨taken_bind_of_eq_none hcolon, rfl⟩), .refl _⟩
  | some body =>
    obtain ⟨cs₁, hcolon, hbody⟩ := h
    have hcolon := (taken_literal_behind_gap (s := ":") (u := ()) rfl rfl).mpr hcolon
    obtain ⟨mid, hchains, hend⟩ := ChainForm.reads.complete_list ChainForm.marks (s := "&&") rfl
      hbody hvalues
    refine ⟨mid, taken_orElse_eq_some.mpr (.inl ?_), hend⟩
    unfold Constraint.listReader
    refine taken_bind_eq_some.mpr ⟨(), cs₁, hcolon, ?_⟩
    rw [taken_blanks_bind]
    exact taken_bind_eq_some.mpr ⟨chains, mid, hchains, rfl⟩

/-- The constraints of a set are spelled in one way at most. -/
theorem ChainForm.spelledBody_unique {body body' : Option (List ChainForm)}
    {cs rest rest' : List Char} (h : ChainForm.SpelledBody body cs rest)
    (h' : ChainForm.SpelledBody body' cs rest') : body = body' ∧ rest = rest' := by
  match body, body', h, h' with
  | none, none, hend, hend' => exact ⟨rfl, (Text.Skip.mark_unique hend hend' rfl rfl).2⟩
  | none, some _, hend, ⟨_, hcolon, _⟩ =>
    exact absurd (Text.Skip.mark_unique hend hcolon rfl rfl).1 (by decide)
  | some _, none, ⟨_, hcolon, _⟩, hend =>
    exact absurd (Text.Skip.mark_unique hcolon hend rfl rfl).1 (by decide)
  | some _, some _, ⟨_, hcolon, hchains⟩, ⟨_, hcolon', hchains'⟩ =>
    obtain ⟨_, rfl⟩ := hcolon.mark_unique hcolon' rfl rfl
    obtain ⟨rfl, rfl⟩ := ChainForm.reads.unique_list ChainForm.marks (s := "&&") rfl hchains
      hchains'
    exact ⟨rfl, rfl⟩

/-- What is read as a set is spelled by a form. -/
theorem SetForm.derives_of_taken {cs rest : List Char} {s : TupleSet}
    (h : TupleSet.reader.taken cs = some (s, rest)) :
    ∃ d : SetForm, d.Spelled cs rest ∧ d.eval = .ok s := by
  unfold TupleSet.reader at h
  obtain ⟨_, cs₁, hbrace, h⟩ := taken_bind_eq_some.mp h
  rw [taken_blanks_bind] at h
  obtain ⟨_, cs₂, hbracket, h⟩ := taken_bind_eq_some.mp h
  rw [taken_blanks_bind] at h
  obtain ⟨tuple, cs₃, htuple, h⟩ := taken_bind_eq_some.mp h
  rw [taken_blanks_bind] at h
  obtain ⟨_, cs₄, hclose, h⟩ := taken_bind_eq_some.mp h
  rw [taken_blanks_bind] at h
  obtain ⟨constraints, cs₅, hbody, h⟩ := taken_bind_eq_some.mp h
  rw [taken_blanks_bind] at h
  obtain ⟨_, cs₆, hend, h⟩ := taken_bind_eq_some.mp h
  obtain ⟨hset, rfl⟩ := taken_inRange_eq_some.mp h
  obtain ⟨as, has, hcoordinates⟩ := CoordinateForm.reads.sound_list CoordinateForm.marks rfl htuple
    ((taken_literal_behind_gap rfl rfl).mp hclose)
  obtain ⟨body, chains, hchains, hvalues, rfl⟩ :=
    ChainForm.spelledBody_of_taken hbody ((taken_literal_behind_gap rfl rfl).mp hend)
  have hopen := (taken_literal_behind_gap rfl rfl).mp hbracket
  exact ⟨⟨as, body⟩, ⟨cs₁, cs₂, cs₄, taken_literal_eq_some.mp hbrace, hopen, has, hchains⟩,
    SetForm.eval_eq_ok.mpr ⟨tuple, hcoordinates, chains, hvalues, hset⟩⟩

/-- A set is read as what its form stands for. -/
theorem SetForm.Spelled.taken {d : SetForm} {s : TupleSet} {cs rest : List Char}
    (h : d.Spelled cs rest) (hs : d.eval = .ok s) :
    TupleSet.reader.taken cs = some (s, rest) := by
  obtain ⟨cs₁, cs₂, cs₃, hcs, hopen, htuple, hbody⟩ := h
  obtain ⟨tuple, hcoordinates, chains, hvalues, hset⟩ := SetForm.eval_eq_ok.mp hs
  obtain ⟨mid, htuple, hclose⟩ := CoordinateForm.reads.complete_list CoordinateForm.marks
    (s := ",") rfl htuple hcoordinates
  obtain ⟨mid', hchains, hend⟩ := ChainForm.taken_of_spelledBody hbody hvalues
  have hbrace : (Reader.literal "\x7b").taken cs = some ((), cs₁) := taken_literal_eq_some.mpr hcs
  have hbracket := (taken_literal_behind_gap (s := "[") (u := ()) rfl rfl).mpr hopen
  have hclose := (taken_literal_behind_gap (s := "]") (u := ()) rfl rfl).mpr hclose
  have hend := (taken_literal_behind_gap (s := "\x7d") (u := ()) rfl rfl).mpr hend
  unfold TupleSet.reader
  refine taken_bind_eq_some.mpr ⟨(), cs₁, hbrace, ?_⟩
  rw [taken_blanks_bind]
  refine taken_bind_eq_some.mpr ⟨(), cs₂, hbracket, ?_⟩
  rw [taken_blanks_bind]
  refine taken_bind_eq_some.mpr ⟨tuple, mid, htuple, ?_⟩
  rw [taken_blanks_bind]
  refine taken_bind_eq_some.mpr ⟨(), cs₃, hclose, ?_⟩
  rw [taken_blanks_bind]
  refine taken_bind_eq_some.mpr ⟨chains.flatten, mid', hchains, ?_⟩
  rw [taken_blanks_bind]
  refine taken_bind_eq_some.mpr ⟨(), rest, hend, ?_⟩
  exact taken_inRange_eq_some.mpr ⟨hset, rfl⟩

/-- A text starts with one set at most. -/
theorem SetForm.Spelled.unique {d d' : SetForm} {cs rest rest' : List Char}
    (h : d.Spelled cs rest) (h' : d'.Spelled cs rest') : d = d' ∧ rest = rest' := by
  obtain ⟨cs₁, cs₂, cs₃, hcs, hopen, htuple, hbody⟩ := h
  obtain ⟨ds₁, ds₂, ds₃, hcs', hopen', htuple', hbody'⟩ := h'
  obtain ⟨tuple, body⟩ := d
  obtain ⟨tuple', body'⟩ := d'
  obtain rfl := (List.cons.inj (hcs.symm.trans hcs')).2
  obtain ⟨_, rfl⟩ := hopen.mark_unique hopen' rfl rfl
  obtain ⟨rfl, rfl⟩ := CoordinateForm.reads.unique_list CoordinateForm.marks (s := ",") rfl htuple
    htuple'
  obtain ⟨rfl, rfl⟩ := ChainForm.spelledBody_unique hbody hbody'
  exact ⟨rfl, rfl⟩

/-- A text is read as a set exactly when it spells a form of the set. -/
theorem TupleSet.parse_eq_ok_iff {t : String} {s : TupleSet} :
    TupleSet.parse t = .ok s ↔
      ∃ d : SetForm, d.Spelled (Text.trim t.toList) [] ∧ d.eval = .ok s := by
  rw [TupleSet.parse, Reader.readAll_eq_ok_iff]
  constructor
  · exact SetForm.derives_of_taken
  · rintro ⟨d, hd, hs⟩
    exact hd.taken hs

end AffineCalls
