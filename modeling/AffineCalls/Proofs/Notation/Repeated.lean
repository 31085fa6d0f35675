import AffineCalls.Proofs.Outcome
import AffineCalls.Proofs.Reader.Lexeme

/-!
# Notations and lists of them

A notation consists of the texts that spell a form, of what the form stands for, and of
a condition on what may follow. A reader reads a notation if it takes just what is
spelled, as what the form stands for, and if no text spells two forms. This passes from
the members of a list to the list, be they repeated, or separated by marks and followed
by a closing one.
-/

namespace AffineCalls

variable {α β : Type}

/-- `p.Reads P value F`: the reader takes what a form of the notation spells in front of
a text with the property `F`, as the value of the form. -/
structure Reader.Reads (p : Reader β) (P : α → List Char → List Char → Prop)
    (value : α → Except Overflow β) (F : List Char → Prop) : Prop where
  /-- What is read is spelled by some form of the value. -/
  sound : ∀ {cs rest : List Char} {b : β}, p.taken cs = some (b, rest) →
    ∃ a, P a cs rest ∧ value a = .ok b
  /-- A form that stands for something is read as this. -/
  complete : ∀ {a : α} {cs rest : List Char} {b : β}, P a cs rest → value a = .ok b →
    F rest → p.taken cs = some (b, rest)
  /-- A text starts with one form at most. -/
  unique : ∀ {a a' : α} {cs rest rest' : List Char}, P a cs rest → P a' cs rest' →
    F rest → F rest' → a = a' ∧ rest = rest'
  /-- A form takes some text. -/
  length_lt : ∀ {a : α} {cs rest : List Char}, P a cs rest → rest.length < cs.length

namespace Text

/-- The text is a spelling of the members of a list one after the other, followed by `rest`. -/
inductive Repeated (P : α → List Char → List Char → Prop) :
    List α → List Char → List Char → Prop
  | nil {cs : List Char} : Repeated P [] cs cs
  | cons {a : α} {as : List α} {cs mid rest : List Char} (ha : P a cs mid)
    (has : Repeated P as mid rest) : Repeated P (a :: as) cs rest

/-- The text is a mark between gaps and a spelling of a form, followed by `rest`. -/
def Behind (mark : List Char) (P : α → List Char → List Char → Prop) (a : α)
    (cs rest : List Char) : Prop :=
  ∃ cs₁ cs₂, Skip cs (mark ++ cs₁) ∧ Skip cs₁ cs₂ ∧ P a cs₂ rest

/-- The text is a spelling of the members of a list with a mark between them, followed
by `rest`. -/
inductive Separated (mark : List Char) (P : α → List Char → List Char → Prop) :
    List α → List Char → List Char → Prop
  | nil {cs : List Char} : Separated mark P [] cs cs
  | cons {a : α} {as : List α} {cs mid rest : List Char} (ha : P a cs mid)
    (has : Repeated (Behind mark P) as mid rest) : Separated mark P (a :: as) cs rest

/-- The text is a list with a mark between its members and a closing mark behind it,
followed by `rest`, with gaps around the list. -/
def Listed (mark : List Char) (close : Char) (P : α → List Char → List Char → Prop)
    (as : List α) (cs rest : List Char) : Prop :=
  ∃ cs₁ cs₂, Skip cs cs₁ ∧ Separated mark P as cs₁ cs₂ ∧ Skip cs₂ (close :: rest)

/-- The first characters of a separating and of a closing mark are told apart from gaps,
from each other and from what the members of a list start with, and they end a member. -/
structure Marks (P : α → List Char → List Char → Prop) (F : List Char → Prop)
    (mark close : Char) : Prop where
  /-- The separating mark starts with no separator. -/
  mark_visible : isSeparator mark = false
  /-- The closing mark is no separator. -/
  close_visible : isSeparator close = false
  /-- The two marks differ. -/
  mark_ne_close : mark ≠ close
  /-- No member starts with a separator or with the closing mark. -/
  start : ∀ {a : α} {cs rest : List Char}, P a cs rest →
    ∃ c ds, cs = c :: ds ∧ isSeparator c = false ∧ c ≠ close
  /-- Either mark ends a member. -/
  ends : ∀ {c : Char} {cs ds : List Char}, c = mark ∨ c = close → Skip cs (c :: ds) → F cs

variable {P : α → List Char → List Char → Prop} {F : List Char → Prop}

/-- What ends a form stands in front of the further members of a repetition, if it
stands behind them and each member starts with such an end. -/
theorem Repeated.follows {as : List α} {cs rest : List Char} (h : Repeated P as cs rest)
    (hstart : ∀ {a cs rest}, P a cs rest → F cs) (hrest : F rest) : F cs := by
  cases h with
  | nil => exact hrest
  | cons ha _ => exact hstart ha

/-- No member starts with a separator. -/
theorem Marks.stops {mark close : Char} (hmarks : Marks P F mark close) {a : α}
    {cs rest : List Char} (ha : P a cs rest) : Stops isSeparator cs := by
  obtain ⟨c, ds, rfl, hc, _⟩ := hmarks.start ha
  exact stops_cons.mpr hc

/-- No member starts with the closing mark. -/
theorem Marks.ne_close {mark close : Char} (hmarks : Marks P F mark close) {a : α}
    {cs rest : List Char} (ha : P a cs rest) (ds : List Char) : cs ≠ close :: ds := by
  rintro rfl
  obtain ⟨c, _, hcs, _, hc⟩ := hmarks.start ha
  exact hc (List.cons.inj hcs).1.symm

/-- No member stands behind a separating mark where the closing mark stands. -/
theorem Marks.not_behind {mark close : Char} (hmarks : Marks P F mark close) {a : α}
    {tail cs rest ds : List Char} (hclose : Skip cs (close :: ds)) :
    ¬Behind (mark :: tail) P a cs rest := by
  rintro ⟨cs₁, cs₂, hmark, _⟩
  exact hmarks.mark_ne_close
    (hmark.mark_unique hclose hmarks.mark_visible hmarks.close_visible).1

/-- Every member of a repetition is spelled somewhere. -/
theorem Repeated.exists_spelled {as : List α} {cs rest : List Char} (h : Repeated P as cs rest) :
    ∀ a ∈ as, ∃ ds es, P a ds es := by
  induction h with
  | nil => exact nofun
  | cons ha _ ih => exact List.forall_mem_cons.mpr ⟨⟨_, _, ha⟩, ih⟩

/-- Every member of a list is spelled somewhere. -/
theorem Listed.exists_spelled {mark : List Char} {close : Char} {as : List α} {cs rest : List Char}
    (h : Listed mark close P as cs rest) : ∀ a ∈ as, ∃ ds es, P a ds es := by
  obtain ⟨_, _, _, has, _⟩ := h
  cases has with
  | nil => exact nofun
  | cons ha has =>
    refine List.forall_mem_cons.mpr ⟨⟨_, _, ha⟩, fun a hmem => ?_⟩
    obtain ⟨_, _, _, ds, _, _, ha⟩ := has.exists_spelled a hmem
    exact ⟨ds, _, ha⟩

/-! ## Written lists -/

/-- The members of a list with separators between them. -/
theorem intercalate_cons (sep cs : List Char) (css : List (List Char)) :
    sep.intercalate (cs :: css) = cs ++ css.flatMap (sep ++ ·) := by
  induction css generalizing cs with
  | nil => rw [List.intercalate_singleton, List.flatMap_nil, List.append_nil]
  | cons ds css ih =>
    rw [List.intercalate_cons_cons, ih, List.flatMap_cons, List.append_assoc, List.append_assoc]

/-- Members that are each written behind a mark, with gaps around it, spell a repetition. -/
theorem repeated_map {γ : Type} {mark before after : List Char} {form : γ → α}
    {render : γ → List Char} {xs : List γ} (hbefore : ∀ b ∈ before, isSeparator b)
    (hafter : ∀ b ∈ after, isSeparator b)
    (h : ∀ x ∈ xs, ∀ rest, P (form x) (render x ++ rest) rest) (rest : List Char) :
    Repeated (Behind mark P) (xs.map form)
      ((xs.map render).flatMap (before ++ (mark ++ after) ++ ·) ++ rest) rest := by
  induction xs with
  | nil => exact .nil
  | cons x xs ih =>
    obtain ⟨hx, hxs⟩ := List.forall_mem_cons.mp h
    rw [List.map_cons, List.map_cons, List.flatMap_cons]
    refine .cons ⟨_, _, ⟨before, hbefore, ?_⟩, ⟨after, hafter, rfl⟩, hx _⟩ (ih hxs)
    simp only [List.append_assoc]

/-- Members that are written with a mark between them, with gaps around it, spell a list. -/
theorem separated_map {γ : Type} {mark before after : List Char} {form : γ → α}
    {render : γ → List Char} {xs : List γ} (hbefore : ∀ b ∈ before, isSeparator b)
    (hafter : ∀ b ∈ after, isSeparator b)
    (h : ∀ x ∈ xs, ∀ rest, P (form x) (render x ++ rest) rest) (rest : List Char) :
    Separated mark P (xs.map form)
      ((before ++ (mark ++ after)).intercalate (xs.map render) ++ rest) rest := by
  cases xs with
  | nil => exact .nil
  | cons x xs =>
    obtain ⟨hx, hxs⟩ := List.forall_mem_cons.mp h
    rw [List.map_cons, List.map_cons, intercalate_cons, List.append_assoc]
    exact .cons (hx _) (repeated_map hbefore hafter hxs rest)

end Text

namespace Reader.Reads

open Text (Repeated Behind Separated Listed Marks Skip)

variable {p : Reader β} {P : α → List Char → List Char → Prop}
  {value : α → Except Overflow β} {F : List Char → Prop}

/-! ## Repetition -/

/-- What is read repeatedly is spelled by a list of forms. -/
theorem sound_many (h : p.Reads P value F) {cs rest : List Char} {bs : List β}
    (hbs : p.many.taken cs = some (bs, rest)) :
    ∃ as, Repeated P as cs rest ∧ as.mapM value = .ok bs := by
  refine Reader.taken_many_induction
    (R := fun cs bs rest => ∃ as, Repeated P as cs rest ∧ as.mapM value = .ok bs)
    (fun _ => ⟨[], .nil, rfl⟩) ?_ hbs
  rintro cs b mid bs rest hb ⟨as, has, hvalues⟩
  obtain ⟨a, ha, hvalue⟩ := h.sound hb
  exact ⟨a :: as, .cons ha has, mapM_eq_ok.mpr (.cons hvalue (mapM_eq_ok.mp hvalues))⟩

/-- A list of forms is read if each member starts with what ends the one before it. -/
theorem complete_many (h : p.Reads P value F) (hstart : ∀ {a cs rest}, P a cs rest → F cs)
    {as : List α} {cs rest : List Char} {bs : List β} (has : Repeated P as cs rest)
    (hvalues : as.mapM value = .ok bs) (hrest : F rest) (hnone : ∀ a rest', ¬P a rest rest') :
    p.many.taken cs = some (bs, rest) := by
  rw [mapM_eq_ok] at hvalues
  induction has generalizing bs with
  | nil =>
    cases hvalues
    refine Reader.taken_many_of_eq_none (Reader.taken_eq_none_iff.mpr fun b rest' hb => ?_)
    obtain ⟨a, ha, _⟩ := h.sound hb
    exact hnone a rest' ha
  | cons ha has ih =>
    obtain ⟨b, bs', hvalue, hmore, rfl⟩ := List.forall₂_cons_left_iff.mp hvalues
    have hfirst := h.complete ha hvalue (has.follows hstart hrest)
    rw [Reader.taken_many_of_eq_some hfirst (h.length_lt ha), ih hmore hrest hnone,
      Option.map_some]

/-- A text is a spelling of one list of forms at most. -/
theorem unique_many (h : p.Reads P value F) (hstart : ∀ {a cs rest}, P a cs rest → F cs)
    {as as' : List α} {cs rest rest' : List Char} (has : Repeated P as cs rest)
    (has' : Repeated P as' cs rest') (hrest : F rest) (hrest' : F rest')
    (hnone : ∀ a r, ¬P a rest r) (hnone' : ∀ a r, ¬P a rest' r) :
    as = as' ∧ rest = rest' := by
  induction has generalizing as' with
  | nil =>
    cases has' with
    | nil => exact ⟨rfl, rfl⟩
    | cons ha' _ => exact absurd ha' (hnone _ _)
  | cons ha has ih =>
    cases has' with
    | nil => exact absurd ha (hnone' _ _)
    | cons ha' has' =>
      obtain ⟨rfl, rfl⟩ := h.unique ha ha' (has.follows hstart hrest)
        (has'.follows hstart hrest')
      obtain ⟨rfl, rfl⟩ := ih has' hrest hnone
      exact ⟨rfl, rfl⟩

/-- A repetition is no longer than its text. -/
theorem length_le_many (h : p.Reads P value F) {as : List α} {cs rest : List Char}
    (has : Repeated P as cs rest) : rest.length ≤ cs.length := by
  induction has with
  | nil => exact Nat.le_refl _
  | cons ha _ ih => exact Nat.le_trans ih (Nat.le_of_lt (h.length_lt ha))

/-! ## Lists with marks -/

variable {mark close : Char} {tail : List Char} {s : String}

/-- A reader reads behind a mark what it reads alone. -/
theorem behind (h : p.Reads P value F) (hmarks : Marks P F mark close)
    (hs : s.toList = mark :: tail) :
    (do (do blanks; literal s; blanks); p : Reader β).Reads (Behind (mark :: tail) P) value F where
  sound := by
    intro cs rest b hb
    obtain ⟨_, cs₂, hmark, hb⟩ := taken_bind_eq_some.mp hb
    obtain ⟨cs₁, hcs₁, hcs₂⟩ := taken_mark_eq_some.mp hmark
    obtain ⟨a, ha, hvalue⟩ := h.sound hb
    rw [hs] at hcs₁
    exact ⟨a, ⟨cs₁, cs₂, hcs₁ ▸ Text.skip_dropWhile cs, hcs₂ ▸ Text.skip_dropWhile cs₁, ha⟩,
      hvalue⟩
  complete := by
    rintro a cs rest b ⟨cs₁, cs₂, hmark, hgap, ha⟩ hvalue hrest
    have hcs₁ := hmark.dropWhile_eq_of_stops (Text.stops_cons.mpr hmarks.mark_visible)
    have hcs₂ := hgap.dropWhile_eq_of_stops (hmarks.stops ha)
    rw [← hs] at hcs₁
    exact taken_bind_eq_some.mpr
      ⟨(), cs₂, taken_mark_eq_some.mpr ⟨cs₁, hcs₁, hcs₂⟩, h.complete ha hvalue hrest⟩
  unique := by
    rintro a a' cs rest rest' ⟨cs₁, cs₂, hmark, hgap, ha⟩ ⟨ds₁, ds₂, hmark', hgap', ha'⟩ hrest
      hrest'
    obtain ⟨_, htail⟩ := hmark.mark_unique hmark' hmarks.mark_visible hmarks.mark_visible
    obtain rfl := List.append_cancel_left htail
    obtain rfl := hgap.unique hgap' (hmarks.stops ha) (hmarks.stops ha')
    exact h.unique ha ha' hrest hrest'
  length_lt := by
    rintro a cs rest ⟨cs₁, cs₂, hmark, hgap, ha⟩
    have hlt := h.length_lt ha
    have hle := hgap.length_le
    have hle' : (tail ++ cs₁).length < cs.length := hmark.length_lt
    rw [List.length_append] at hle'
    omega

/-- What is read as a list in front of a closing mark is spelled by a list of forms. -/
theorem sound_list (h : p.Reads P value F) (hmarks : Marks P F mark close)
    (hs : s.toList = mark :: tail) {cs mid rest : List Char} {bs : List β}
    (hbs : (sepBy p (do blanks; literal s; blanks)).taken (cs.dropWhile Text.isSeparator) =
      some (bs, mid))
    (hclose : Skip mid (close :: rest)) :
    ∃ as, Listed (mark :: tail) close P as cs rest ∧ as.mapM value = .ok bs := by
  rcases taken_sepBy_eq_some hbs with ⟨b, mid', bs', hb, hmore, rfl⟩ | ⟨rfl, rfl⟩
  · obtain ⟨a, ha, hvalue⟩ := h.sound hb
    obtain ⟨as, has, hvalues⟩ := (h.behind hmarks hs).sound_many hmore
    exact ⟨a :: as, ⟨_, mid, Text.skip_dropWhile cs, .cons ha has, hclose⟩,
      mapM_eq_ok.mpr (.cons hvalue (mapM_eq_ok.mp hvalues))⟩
  · exact ⟨[], ⟨_, _, Text.skip_dropWhile cs, .nil, hclose⟩, rfl⟩

/-- A separating mark ends the member in front of it. -/
theorem follows_behind (hmarks : Marks P F mark close) {a : α} {cs rest : List Char}
    (ha : Behind (mark :: tail) P a cs rest) : F cs := by
  obtain ⟨cs₁, cs₂, hmark, _⟩ := ha
  exact hmarks.ends (.inl rfl) hmark

/-- A list of forms is read up to the gap in front of the closing mark. -/
theorem complete_list (h : p.Reads P value F) (hmarks : Marks P F mark close)
    (hs : s.toList = mark :: tail) {as : List α} {cs rest : List Char} {bs : List β}
    (has : Listed (mark :: tail) close P as cs rest) (hvalues : as.mapM value = .ok bs) :
    ∃ mid, (sepBy p (do blanks; literal s; blanks)).taken (cs.dropWhile Text.isSeparator) =
      some (bs, mid) ∧ Skip mid (close :: rest) := by
  obtain ⟨cs₁, cs₂, hopen, has, hclose⟩ := has
  cases has with
  | nil =>
    cases mapM_eq_ok.mp hvalues
    -- The gap in front of the closing mark is one with the gap in front of the list.
    have hcs := (hopen.trans hclose).dropWhile_eq_of_stops
      (Text.stops_cons.mpr hmarks.close_visible)
    have hnone : p.taken (cs.dropWhile Text.isSeparator) = none := by
      refine taken_eq_none_iff.mpr fun b rest' hb => ?_
      obtain ⟨a, ha, _⟩ := h.sound hb
      exact hmarks.ne_close ha rest hcs
    exact ⟨_, taken_sepBy_of_eq_none hnone, hcs ▸ .refl _⟩
  | cons ha has =>
    obtain ⟨b, bs', hvalue, hothers, rfl⟩ := List.forall₂_cons_left_iff.mp (mapM_eq_ok.mp hvalues)
    have hend := hmarks.ends (.inr rfl) hclose
    have hfirst := h.complete ha hvalue (has.follows (follows_behind hmarks) hend)
    rw [← hopen.dropWhile_eq_of_stops (hmarks.stops ha)] at hfirst
    have hmore := (h.behind hmarks hs).complete_many (follows_behind hmarks) has
      (mapM_eq_ok.mpr hothers) hend fun _ _ => hmarks.not_behind hclose
    exact ⟨cs₂, taken_sepBy_of_eq_some hfirst hmore, hclose⟩

/-- In front of a closing mark there is one list of forms at most. -/
theorem unique_list (h : p.Reads P value F) (hmarks : Marks P F mark close)
    (hs : s.toList = mark :: tail) {as as' : List α} {cs rest rest' : List Char}
    (has : Listed (mark :: tail) close P as cs rest)
    (has' : Listed (mark :: tail) close P as' cs rest') : as = as' ∧ rest = rest' := by
  obtain ⟨cs₁, cs₂, hopen, has, hclose⟩ := has
  obtain ⟨ds₁, ds₂, hopen', has', hclose'⟩ := has'
  have hvisible := hmarks.close_visible
  have hstop : ∀ ds, Text.Stops Text.isSeparator (close :: ds) :=
    fun _ => Text.stops_cons.mpr hvisible
  cases has with
  | nil =>
    cases has' with
    | nil =>
      exact ⟨rfl, ((hopen.trans hclose).mark_unique (hopen'.trans hclose') hvisible hvisible).2⟩
    | cons ha' _ =>
      have hcs := hopen'.unique (hopen.trans hclose) (hmarks.stops ha') (hstop _)
      exact absurd hcs (hmarks.ne_close ha' _)
  | cons ha has =>
    cases has' with
    | nil =>
      have hcs := hopen.unique (hopen'.trans hclose') (hmarks.stops ha) (hstop _)
      exact absurd hcs (hmarks.ne_close ha _)
    | cons ha' has' =>
      obtain rfl := hopen.unique hopen' (hmarks.stops ha) (hmarks.stops ha')
      have hend := hmarks.ends (.inr rfl) hclose
      have hend' := hmarks.ends (.inr rfl) hclose'
      obtain ⟨rfl, rfl⟩ := h.unique ha ha' (has.follows (follows_behind hmarks) hend)
        (has'.follows (follows_behind hmarks) hend')
      obtain ⟨rfl, rfl⟩ := (h.behind hmarks hs).unique_many (follows_behind hmarks) has has' hend
        hend' (fun _ _ => hmarks.not_behind hclose) fun _ _ => hmarks.not_behind hclose'
      exact ⟨rfl, (hclose.mark_unique hclose' hvisible hvisible).2⟩

end Reader.Reads

end AffineCalls
