import IndentAsm.Parse.State

/-!
# Reading a program comes to an end

An expansion makes the unread tokens more, but the new ones stand one level
deeper than a token that was taken away for them. So the unread tokens are
counted level by level (`Profile`), and the counts are compared from the
outermost level on. The limit on nesting makes the number of levels finite: no
call is read at the limit or beyond, so all levels from the limit on can be
counted together.

**Results.**
* `profile_append`: taking tokens away makes the profile smaller.
* `profile_insert`: so does a macro call, though it puts others in.
* `step_smaller`: every step makes the measure of the state smaller.
-/
namespace IndentAsm.Parse

open IndentAsm.Stream (Reads)

/-- The counts of the levels `0` to `n - 1`, and of all levels from `n` on. -/
def Profile : Nat → Type
  | 0 => Nat
  | n + 1 => Nat × Profile n

/-- Profiles are compared from the outermost level on. -/
def Profile.Lt : (n : Nat) → Profile n → Profile n → Prop
  | 0 => Nat.lt
  | n + 1 => Prod.Lex Nat.lt (Lt n)

theorem Profile.lt_wf (n : Nat) : WellFounded (Lt n) := by
  induction n with
  | zero => exact Nat.lt_wfRel.wf
  | succ n ih => exact (Prod.lex Nat.lt_wfRel ⟨Lt n, ih⟩).wf

instance (n : Nat) : WellFoundedRelation (Profile n) := ⟨Profile.Lt n, Profile.lt_wf n⟩

/-- The levels below the outermost one. -/
def inner (depths : List Nat) : List Nat :=
  (depths.filter (· ≠ 0)).map (· - 1)

/-- The profile of tokens at the given depths. -/
def profile : (n : Nat) → List Nat → Profile n
  | 0, depths => depths.length
  | n + 1, depths => (depths.count 0, profile n (inner depths))

theorem count_inner (depths : List Nat) (i : Nat) : (inner depths).count i = depths.count (i + 1) := by
  induction depths with
  | nil => rfl
  | cons d ds ih =>
    cases d with
    | zero => simpa [inner] using ih
    | succ d =>
      have h : inner ((d + 1) :: ds) = d :: inner ds := by simp [inner]
      rw [h, List.count_cons, List.count_cons, ih]
      simp

theorem inner_append (ds es : List Nat) : inner (ds ++ es) = inner ds ++ inner es := by
  simp [inner]

/-- Taking tokens away makes the profile smaller. -/
theorem profile_append (n : Nat) (taken ds : List Nat) (h : taken ≠ []) :
    Profile.Lt n (profile n ds) (profile n (taken ++ ds)) := by
  induction n generalizing taken ds with
  | zero =>
    have := List.length_pos_iff.2 h
    simp only [profile, List.length_append]
    show ds.length < taken.length + ds.length
    omega
  | succ n ih =>
    simp only [profile, List.count_append, inner_append]
    by_cases h0 : taken.count 0 = 0
    · rw [h0, Nat.zero_add]
      refine Prod.Lex.right _ (ih _ _ ?_)
      obtain ⟨d, ds', rfl⟩ := List.exists_cons_of_ne_nil h
      cases d with
      | zero => simp at h0
      | succ d => simp [inner]
    · exact Prod.Lex.left _ _ (show List.count 0 ds < _ by omega)

/-- A profile is smaller where a level has fewer tokens and no level outside
it has more. -/
theorem profile_lt {n i : Nat} {ds es : List Nat} (hi : i < n)
    (hlt : es.count i < ds.count i) (hle : ∀ j, j < i → es.count j ≤ ds.count j) :
    Profile.Lt n (profile n es) (profile n ds) := by
  induction n generalizing i ds es with
  | zero => omega
  | succ n ih =>
    cases i with
    | zero => exact Prod.Lex.left _ _ hlt
    | succ i =>
      have h0 := hle 0 (Nat.succ_pos i)
      rcases Nat.lt_or_eq_of_le h0 with h | h
      · exact Prod.Lex.left _ _ h
      · simp only [profile, h]
        refine Prod.Lex.right _ (ih (i := i) (by omega) ?_ ?_)
        · rwa [count_inner, count_inner]
        · intro j hj
          rw [count_inner, count_inner]
          exact hle (j + 1) (by omega)

/-- Tokens, one of them at depth `d` below the limit, make way for tokens one
level deeper than one of them: the profile becomes smaller. -/
theorem profile_insert {n d l : Nat} {taken : List Nat} (hd : d < n) (hdt : d ∈ taken)
    (hlt : l ∈ taken) (ds : List Nat) (k : Nat) :
    Profile.Lt n (profile n (List.replicate k (l + 1) ++ ds)) (profile n (taken ++ ds)) := by
  have outside {i : Nat} (h : i ≤ l) : (List.replicate k (l + 1)).count i = 0 :=
    List.count_eq_zero.2 fun hm => by have := (List.mem_replicate.1 hm).2; omega
  have key {i : Nat} (hi : i < n) (hit : i ∈ taken) (hil : i ≤ l) :
      Profile.Lt n (profile n (List.replicate k (l + 1) ++ ds)) (profile n (taken ++ ds)) := by
    refine profile_lt hi ?_ fun j hj => ?_
    · have := List.count_pos_iff.2 hit
      rw [List.count_append, List.count_append, outside hil]
      omega
    · rw [List.count_append, List.count_append, outside (by omega)]
      omega
  by_cases hl : l < n
  · exact key hl hlt (Nat.le_refl l)
  · exact key hd hdt (by omega)

/-! ## The measure of a state -/

def depths (s : Stream) : List Nat := s.unread.map Prod.snd

/-- A body that is left open counts as something still to be done. -/
def Place.rank : Place → Nat
  | .outside => 0
  | .inside .. => 1

/-- What every step makes smaller. -/
def State.measure (limit : Nat) (s : State) : Profile limit × Nat :=
  (profile limit (depths s.stream), s.place.rank)

/-- Steps are compared by the profile of what is unread, and then by place. -/
def Smaller (limit : Nat) (s s' : State) : Prop :=
  Prod.Lex (Profile.Lt limit) Nat.lt (s.measure limit) (s'.measure limit)

theorem depths_of_reads {s s' : Stream} {taken : List (Token × Nat)} (h : Reads s taken s') :
    depths s = taken.map Prod.snd ++ depths s' := by
  simp [depths, h.unread]

theorem smaller_of_reads {limit : Nat} {s s' : State} {taken : List (Token × Nat)}
    (hne : taken ≠ []) (h : Reads s.stream taken s'.stream) : Smaller limit s' s := by
  refine Prod.Lex.left _ _ ?_
  rw [depths_of_reads h]
  exact profile_append _ _ _ (by simpa using hne)

/-- Leaving a body counts, even where no token is taken. -/
theorem smaller_close {limit : Nat} {s : State} {name : Token} {code : List Instruction}
    {stream : Stream} {taken : List (Token × Nat)} (hp : s.place = .inside name code)
    (h : Reads s.stream taken stream) : Smaller limit (s.close name code stream) s := by
  by_cases hne : taken = []
  · subst hne
    have hd : depths s.stream = depths stream := depths_of_reads h
    simp only [Smaller, State.measure, State.close, hp, Place.rank, hd]
    exact Prod.Lex.right _ (Nat.lt_succ_self 0)
  · exact smaller_of_reads hne h

/-- A call takes the name away, at a depth below the limit, and the arguments,
and puts in tokens one level deeper than the last of these. -/
theorem smaller_call {limit : Nat} {s : State} {stream stream' : Stream} {t : Token} {e : Event}
    {log : List Event} (ht : Reads s.stream [(t, stream.depth)] stream)
    (h : call limit s.macros t stream = .ok (e, stream')) :
    Smaller limit { s with stream := stream', log := log } s := by
  obtain ⟨m, args, u, -, ha, -, hd, rfl, -⟩ := call_eq_ok h
  obtain ⟨taken, hr⟩ := forward_arguments t stream args u ha
  have hall := ht.trans hr
  have hu : u.depth ∈ ([(t, stream.depth)] ++ taken).map Prod.snd := by
    rw [hall.depth]
    cases hg : ([(t, stream.depth)] ++ taken).getLast? with
    | none => simp at hg
    | some p => exact List.mem_map_of_mem (List.mem_of_getLast? hg)
  refine Prod.Lex.left _ _ ?_
  have h1 : depths (u.insert (m.expand args)) =
      List.replicate (m.expand args).length (u.depth + 1) ++ depths u := by
    rw [depths, Stream.unread_insert, List.map_append, List.map_map]
    exact congrArg (· ++ depths u) (List.map_const' ..)
  simp only [h1, depths_of_reads hall]
  exact profile_insert hd (by simp) hu _ _

/-! ## Every step makes the measure smaller -/

theorem stepOutside_smaller {limit : Nat} {s s' : State}
    (h : s.stepOutside = .ok (.running s')) : Smaller limit s' s := by
  obtain ⟨x, hx⟩ := s.stream.reads_skipBlankLines
  unfold State.stepOutside at h
  dsimp only at h
  split at h
  · cases h
  · obtain ⟨⟨⟨m, indent⟩, stream⟩, hd, h⟩ := bind_eq_ok.1 h
    obtain ⟨t, taken, hr⟩ := definition_reads_some hd
    obtain ⟨u, hu, h⟩ := bind_eq_ok.1 h
    cases h
    unfold State.define at hu
    split at hu
    · cases hu
    · cases hu
      exact smaller_of_reads (by simp) (hx.trans hr)
  · cases h
  · obtain ⟨u, hu, h⟩ := bind_eq_ok.1 h
    cases h
    obtain ⟨⟨name, a⟩, ha, hu⟩ := bind_eq_ok.1 hu
    obtain ⟨⟨c, b⟩, hb, hu⟩ := bind_eq_ok.1 hu
    dsimp only at hu
    split at hu
    · cases hu
    · obtain ⟨⟨t, stream⟩, hs, hu⟩ := bind_eq_ok.1 hu
      cases hu
      obtain ⟨y, hy⟩ := forward_blockStart _ _ _ _ hs
      exact smaller_of_reads (by simp) (((hx.trans (Stream.reads_expect (by decide) ha)).trans
        (Stream.reads_expect (by decide) hb)).trans hy)

theorem stepInside_smaller {limit : Nat} {s s' : State} {name : Token} {code : List Instruction}
    (hp : s.place = .inside name code) (h : s.stepInside limit name code = .ok s') :
    Smaller limit s' s := by
  unfold State.stepInside at h
  dsimp only at h
  split at h
  · rename_i hk
    have hr := Stream.reads_advance_of_ne (s := s.stream) (by simp [hk])
    obtain ⟨⟨next, stream⟩, hc, h⟩ := bind_eq_ok.1 h
    obtain ⟨x, hx⟩ := forward_blockContinues _ _ _ _ hc
    cases next with
    | some i => cases h; exact smaller_of_reads (by simp) (hr.trans hx)
    | none => cases h; exact smaller_close hp (hr.trans hx)
  · rename_i hk
    have hr := Stream.reads_advance_of_ne (s := s.stream) (by simp [hk])
    obtain ⟨⟨i, stream⟩, hi, h⟩ := bind_eq_ok.1 h
    obtain ⟨x, hx⟩ := forward_instruction _ _ _ _ hi
    dsimp only at h
    split at h
    · cases h; exact smaller_of_reads (by simp) (hr.trans hx)
    · cases h
  · rename_i hk
    have hr := Stream.reads_advance_of_ne (s := s.stream) (by simp [hk])
    split at h
    · obtain ⟨⟨e, stream⟩, hc, h⟩ := bind_eq_ok.1 h
      cases h
      exact smaller_call hr hc
    · cases h
  · obtain ⟨x, hx⟩ := s.stream.advance_follows
    cases h
    exact smaller_close hp hx
  · cases h

theorem step_smaller {limit : Nat} {s s' : State} (h : s.step limit = .ok (.running s')) :
    Smaller limit s' s := by
  unfold State.step at h
  split at h
  · exact stepOutside_smaller h
  · rename_i name code hp
    cases hs : s.stepInside limit name code with
    | error e => simp [hs, Except.map] at h
    | ok u =>
      simp only [hs, Except.map, Except.ok.injEq, Outcome.running.injEq] at h
      exact h ▸ stepInside_smaller hp hs

end IndentAsm.Parse
