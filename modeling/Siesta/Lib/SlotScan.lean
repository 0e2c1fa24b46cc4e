import Siesta.Lib.Slots

/-!
# Slots from left to right

Read from left to right, a text is a sequence of slots and of characters at which no slot starts
(`slots_induction`).  `fillSlots` puts a value in the place of every slot; with empty slots as the values
it does what emptying the slots of one name after the other does (`foldl_emptySlots_eq`).
-/

namespace Siesta.Lib

/-- Empties the slots of all names at once. -/
def emptyAll (names : List Str) (s : Str) : Str := fillSlots id names (fun _ => ['{', '}']) s

theorem slot_prefix_unique {a b s : Str} (ha : '}' ∉ a) (hb : '}' ∉ b) (h : slot a <+: slot b ++ s) :
    a = b := by
  refine eq_of_prefix_close ha (t := s) ?_ hb
  simpa [slot] using h

theorem not_slot_first {n s : Str} {c : Char} (hc : c ≠ '{') : ¬ slot n <+: c :: s := fun h =>
  hc (List.cons_prefix_cons.mp h).1.symm

/-- A slot in front, then the rest, or a character at which no slot starts. -/
theorem slots_induction (names : List Str) {P : Str → Prop} (nil : P [])
    (slot : ∀ n ∈ names, ∀ s, P s → P (slot n ++ s))
    (char : ∀ c s, (∀ n ∈ names, ¬ Lib.slot n <+: c :: s) → P s → P (c :: s)) : ∀ s, P s := by
  intro s
  induction hlen : s.length using Nat.strong_induction_on generalizing s with
  | _ k ih =>
    cases s with
    | nil => exact nil
    | cons c s =>
      rw [List.length_cons] at hlen
      by_cases h : ∃ n ∈ names, Lib.slot n <+: c :: s
      · obtain ⟨n, hn, rest, hrest⟩ := h
        rw [← hrest]
        refine slot n hn rest (ih rest.length ?_ rest rfl)
        have := congrArg List.length hrest
        simp only [List.length_append, Lib.slot, List.length_cons] at this
        omega
      · have hno : ∀ n ∈ names, ¬ Lib.slot n <+: c :: s := fun n hn hpre => h ⟨n, hn, hpre⟩
        exact char c s hno (ih s.length (by omega) s rfl)

/-! ### One turn of the scan -/

section

variable {names : List Str} (vals : Str → Str)

@[simp] theorem fillSlots_nil : fillSlots id names vals [] = [] := rfl

/-- A slot in front, when no other name has one there. -/
theorem fillSlots_slot {n : Str} (hn : n ∈ names) (s : Str)
    (huniq : ∀ m ∈ names, slot m <+: slot n ++ s → m = n) :
    fillSlots id names vals (slot n ++ s) = vals n ++ fillSlots id names vals s := by
  have hfind : (names.find? fun a => (slot (id a)).isPrefixOf (slot n ++ s)) = some n := by
    obtain ⟨m, hm⟩ : ∃ m, (names.find? fun a => (slot (id a)).isPrefixOf (slot n ++ s)) = some m :=
      Option.isSome_iff_exists.mp (List.find?_isSome.mpr
        ⟨n, hn, List.isPrefixOf_iff_prefix.mpr (List.prefix_append _ _)⟩)
    have hpre : slot m <+: slot n ++ s := by simpa using List.find?_some hm
    rw [hm, huniq m (List.mem_of_find?_eq_some hm) hpre]
  have hskip : pathTokens id names n.length.succ (n ++ ['}'] ++ s) = pathTokens id names 0 s := by
    rw [pathTokens_drop]
    congr 1
    rw [show n.length.succ = (n ++ ['}']).length by simp, List.drop_left]
  show fillTokens vals (pathTokens id names 0 ('{' :: (n ++ ['}'] ++ s))) = _
  rw [pathTokens]
  have hfind' : (names.find? fun a => (slot (id a)).isPrefixOf ('{' :: (n ++ ['}'] ++ s))) = some n := hfind
  rw [hfind']
  dsimp only
  rw [show (id n : Str).length.succ = n.length.succ from rfl, hskip]
  rfl

theorem fillSlots_char {c : Char} {s : Str} (hno : ∀ n ∈ names, ¬ slot n <+: c :: s) :
    fillSlots id names vals (c :: s) = c :: fillSlots id names vals s := by
  have hfind : (names.find? fun a => (slot (id a)).isPrefixOf (c :: s)) = none :=
    List.find?_eq_none.mpr fun n hn hpre => hno n hn (List.isPrefixOf_iff_prefix.mp hpre)
  rw [fillSlots, pathTokens, hfind]
  rfl

end

/-! ### Names without braces -/

/-- A name without braces: its slots do not overlap with others. -/
def BraceFree (name : Str) : Prop := '{' ∉ name ∧ '}' ∉ name

theorem slot_append (n s : Str) : slot n ++ s = '{' :: (n ++ '}' :: s) := by simp [slot]

/-- The slot of another name is no slot of this one. -/
theorem not_slot_prefix_slot {m n : Str} (hm : BraceFree m) (hn : BraceFree n) (hne : m ≠ n) (s : Str) :
    ¬ slot m <+: '{' :: (n ++ '}' :: s) := fun h =>
  hne (slot_prefix_unique hm.2 hn.2 (slot_append n s ▸ h))

/-- A slot in a text that starts with a slot is this one or behind it. -/
theorem infix_slot_append {m n s : Str} (hm : BraceFree m) (hn : BraceFree n) (h : slot m <:+: slot n ++ s) :
    m = n ∨ slot m <:+: s := by
  rw [slot_append] at h
  rcases List.infix_cons_iff.mp h with h | h
  · exact .inl (slot_prefix_unique hm.2 hn.2 (slot_append n s ▸ h))
  · refine .inr ?_
    have key : ∀ u : Str, '{' ∉ u → slot m <:+: u ++ s → slot m <:+: s := by
      intro u
      induction u with
      | nil => exact fun _ h => h
      | cons c u ih =>
        intro hu h
        rcases List.infix_cons_iff.mp h with h | h
        · exact absurd h (not_slot_first fun hc => hu (hc ▸ List.mem_cons_self ..))
        · exact ih (fun hmem => hu (List.mem_cons_of_mem _ hmem)) h
    refine key (n ++ ['}']) (by simp [hn.1]) ?_
    simpa using h

/-- A slot without its opening brace is a slot no longer. -/
theorem not_slot_close {n : Str} (hn : BraceFree n) (hne : n ≠ []) (s t : Str) :
    ['{', '}'] ++ s ≠ slot n ++ t := by
  intro h
  rw [slot_append] at h
  cases n with
  | nil => exact hne rfl
  | cons c n =>
    have hc : '}' = c := (List.cons.inj (List.cons.inj h).2).1
    exact hn.2 (hc ▸ List.mem_cons_self ..)

section

variable {names : List Str} (hnames : ∀ n ∈ names, BraceFree n) (vals : Str → Str)

theorem fillSlots_literal {u : Str} (hu : '{' ∉ u) (s : Str) :
    fillSlots id names vals (u ++ s) = u ++ fillSlots id names vals s := by
  induction u with
  | nil => rfl
  | cons c u ih =>
    have hc : c ≠ '{' := fun hc => hu (hc ▸ List.mem_cons_self ..)
    rw [List.cons_append, fillSlots_char vals fun n _ => not_slot_first hc,
      ih fun hmem => hu (List.mem_cons_of_mem _ hmem)]
    rfl

include hnames

theorem fillSlots_slot_append {n : Str} (hn : BraceFree n) (s : Str) :
    fillSlots id names vals (slot n ++ s) =
      (if n ∈ names then vals n else slot n) ++ fillSlots id names vals s := by
  split
  · rename_i hmem
    exact fillSlots_slot vals hmem s fun m hm hpre => slot_prefix_unique (hnames m hm).2 hn.2 hpre
  · rename_i hmem
    have hno : ∀ m ∈ names, ¬ slot m <+: '{' :: (n ++ '}' :: s) := fun m hm =>
      not_slot_prefix_slot (hnames m hm) hn (fun heq => hmem (heq ▸ hm)) s
    rw [slot_append, fillSlots_char vals hno, show n ++ '}' :: s = (n ++ ['}']) ++ s by simp,
      fillSlots_literal vals (by simp [hn.1])]
    rfl

theorem prefix_of_prefix_emptyAll {u : Str} (hu : '{' ∉ u) {s : Str} (h : u <+: emptyAll names s) :
    u <+: s := by
  induction s using slots_induction names generalizing u with
  | nil => exact h
  | slot n hn s ih =>
    rw [emptyAll, fillSlots_slot_append hnames _ (hnames n hn), if_pos hn] at h
    cases u with
    | nil => exact List.nil_prefix
    | cons c u => exact absurd ((List.cons_prefix_cons.mp h).1 ▸ List.mem_cons_self ..) hu
  | char c s hno ih =>
    rw [emptyAll, fillSlots_char _ hno] at h
    cases u with
    | nil => exact List.nil_prefix
    | cons d u =>
      obtain ⟨rfl, hrest⟩ := List.cons_prefix_cons.mp h
      exact List.cons_prefix_cons.mpr ⟨rfl, ih (fun hmem => hu (List.mem_cons_of_mem _ hmem)) hrest⟩

/-- No slot of a name is left, but for the empty one. -/
theorem not_slot_infix_emptyAll {n : Str} (hn : n ∈ names) (hne : n ≠ []) (s : Str) :
    ¬ slot n <:+: emptyAll names s := by
  induction s using slots_induction names with
  | nil => simp [emptyAll, slot]
  | slot m hm s ih =>
    intro h
    rw [emptyAll, fillSlots_slot_append hnames _ (hnames m hm), if_pos hm] at h
    rcases infix_slot_append (n := []) (hnames n hn) ⟨by simp, by simp⟩ h with h | h
    · exact hne h
    · exact ih h
  | char c s hno ih =>
    intro h
    rw [emptyAll, fillSlots_char _ hno] at h
    rcases List.infix_cons_iff.mp h with h | h
    · obtain ⟨rfl, hpre⟩ := List.cons_prefix_cons.mp h
      have hclose : '{' ∉ n ++ ['}'] := by simp [(hnames n hn).1]
      exact hno n hn (List.cons_prefix_cons.mpr ⟨rfl, prefix_of_prefix_emptyAll hnames hclose hpre⟩)
    · exact ih h

theorem braces_infix_emptyAll {n : Str} (hn : n ∈ names) {s : Str} (h : slot n <:+: s) :
    ['{', '}'] <:+: emptyAll names s := by
  induction s using slots_induction names with
  | nil => simp [slot] at h
  | slot m hm s _ =>
    rw [emptyAll, fillSlots_slot_append hnames _ (hnames m hm), if_pos hm]
    exact (List.prefix_append _ _).isInfix
  | char c s hno ih =>
    rw [emptyAll, fillSlots_char _ hno]
    rcases List.infix_cons_iff.mp h with h | h
    · exact absurd h (hno n hn)
    · exact List.infix_cons (ih h)

end

/-! ### One name after the other -/

theorem emptySlots_literal (name : Str) {u : Str} (hu : '{' ∉ u) (s : Str) :
    emptySlots (u ++ s) name = u ++ emptySlots s name := by
  induction u with
  | nil => rfl
  | cons c u ih =>
    have hc : c ≠ '{' := fun hc => hu (hc ▸ List.mem_cons_self ..)
    rw [List.cons_append, emptySlots, replaceAll_cons (slot_ne_nil name) _ (not_slot_first hc),
      ← emptySlots, ih fun hmem => hu (List.mem_cons_of_mem _ hmem)]
    rfl

theorem emptySlots_slot_append {n m : Str} (hn : BraceFree n) (hm : BraceFree m) (s : Str) :
    emptySlots (slot n ++ s) m = (if n = m then ['{', '}'] else slot n) ++ emptySlots s m := by
  split
  · rename_i h
    subst h
    exact replaceAll_append (slot_ne_nil n) _ s
  · rename_i h
    have hclose : '{' ∉ n ++ ['}'] := by simp [hn.1]
    rw [slot_append, emptySlots, replaceAll_cons (slot_ne_nil m) _
      (not_slot_prefix_slot hm hn (fun heq => h heq.symm) s), ← emptySlots,
      show n ++ '}' :: s = (n ++ ['}']) ++ s by simp, emptySlots_literal m hclose]
    rfl

theorem prefix_of_prefix_emptySlots {m u : Str} (hm : BraceFree m) (hu : '{' ∉ u) {s : Str}
    (h : u <+: emptySlots s m) : u <+: s := by
  induction s using slots_induction [m] generalizing u with
  | nil => simpa [emptySlots, slot_ne_nil] using h
  | slot n hn s ih =>
    obtain rfl := List.mem_singleton.mp hn
    rw [emptySlots_slot_append hm hm, if_pos rfl] at h
    cases u with
    | nil => exact List.nil_prefix
    | cons c u => exact absurd ((List.cons_prefix_cons.mp h).1 ▸ List.mem_cons_self ..) hu
  | char c s hno ih =>
    rw [emptySlots, replaceAll_cons (slot_ne_nil m) _ (hno m (List.mem_singleton_self m)), ← emptySlots] at h
    cases u with
    | nil => exact List.nil_prefix
    | cons d u =>
      obtain ⟨rfl, hrest⟩ := List.cons_prefix_cons.mp h
      exact List.cons_prefix_cons.mpr ⟨rfl, ih (fun hmem => hu (List.mem_cons_of_mem _ hmem)) hrest⟩

theorem foldl_emptySlots_slot {n : Str} (hn : BraceFree n) {names : List Str}
    (hnames : ∀ m ∈ names, BraceFree m) (s : Str) :
    names.foldl emptySlots (slot n ++ s) =
      (if n ∈ names then ['{', '}'] else slot n) ++ names.foldl emptySlots s := by
  induction names generalizing n s with
  | nil => simp
  | cons m names ih =>
    have hm := hnames m (List.mem_cons_self ..)
    have hrest : ∀ k ∈ names, BraceFree k := fun k hk => hnames k (List.mem_cons_of_mem _ hk)
    rw [List.foldl_cons, List.foldl_cons, emptySlots_slot_append hn hm]
    by_cases h : n = m
    · -- the slot is an empty one for the names behind
      have hempty := ih (n := []) ⟨by simp, by simp⟩ hrest (emptySlots s m)
      rw [if_pos h, if_pos (h ▸ List.mem_cons_self ..)]
      simpa [slot] using hempty
    · rw [if_neg h, ih hn hrest]
      simp [h]

theorem foldl_emptySlots_char {c : Char} {names : List Str} (hnames : ∀ m ∈ names, BraceFree m) {s : Str}
    (hno : ∀ n ∈ names, ¬ slot n <+: c :: s) :
    names.foldl emptySlots (c :: s) = c :: names.foldl emptySlots s := by
  induction names generalizing s with
  | nil => rfl
  | cons m names ih =>
    have hm := hnames m (List.mem_cons_self ..)
    have hrest : ∀ k ∈ names, BraceFree k := fun k hk => hnames k (List.mem_cons_of_mem _ hk)
    rw [List.foldl_cons, List.foldl_cons, emptySlots,
      replaceAll_cons (slot_ne_nil m) _ (hno m (List.mem_cons_self ..)), ← emptySlots]
    refine ih hrest fun n hn hpre => hno n (List.mem_cons_of_mem _ hn) ?_
    obtain ⟨rfl, hslot⟩ := List.cons_prefix_cons.mp hpre
    have hclose : '{' ∉ n ++ ['}'] := by simp [(hrest n hn).1]
    exact List.cons_prefix_cons.mpr ⟨rfl, prefix_of_prefix_emptySlots hm hclose hslot⟩

/-- **Emptying the slots of one name after the other** is emptying all of them in one turn. -/
theorem foldl_emptySlots_eq {names : List Str} (hnames : ∀ n ∈ names, BraceFree n) (s : Str) :
    names.foldl emptySlots s = emptyAll names s := by
  induction s using slots_induction names with
  | nil => exact foldl_emptySlots_of_no_slots fun n _ h => by simp [slot] at h
  | slot n hn s ih =>
    rw [foldl_emptySlots_slot (hnames n hn) hnames, ih, emptyAll, emptyAll,
      fillSlots_slot_append hnames _ (hnames n hn)]
  | char c s hno ih =>
    rw [foldl_emptySlots_char hnames hno, ih, emptyAll, emptyAll, fillSlots_char _ hno]

/-! ### Two lists of names -/

section

variable {names names' : List Str} (hnames : ∀ n ∈ names, BraceFree n)

include hnames

theorem fillSlots_congr_names (vals : Str → Str) {s : Str}
    (h : ∀ n, slot n <:+: s → (n ∈ names ↔ n ∈ names')) :
    fillSlots id names vals s = fillSlots id names' vals s := by
  induction s using slots_induction names with
  | nil => rfl
  | slot n hn s ih =>
    have hpre : ∀ {m}, slot m <+: slot n ++ s → m ∈ names → m = n := fun hpre hm =>
      slot_prefix_unique (hnames _ hm).2 (hnames n hn).2 hpre
    have hn' : n ∈ names' := (h n (List.prefix_append _ _).isInfix).mp hn
    rw [fillSlots_slot vals hn s fun m hm hm' => hpre hm' hm,
      fillSlots_slot vals hn' s fun m hm hm' => hpre hm' ((h m hm'.isInfix).mpr hm),
      ih fun m hm => h m (hm.trans (List.suffix_append _ _).isInfix)]
  | char c s hno ih =>
    have hno' : ∀ n ∈ names', ¬ slot n <+: c :: s := fun n hn hpre =>
      hno n ((h n hpre.isInfix).mpr hn) hpre
    rw [fillSlots_char vals hno, fillSlots_char vals hno', ih fun m hm => h m (List.infix_cons hm)]

variable (hnames' : ∀ n ∈ names', BraceFree n)

include hnames'

theorem braceFree_of_mem_append {n : Str} (hn : n ∈ names ++ names') : BraceFree n :=
  (List.mem_append.mp hn).elim (hnames n) (hnames' n)

/-- The names whose slots are there can be seen from what is left of the text. -/
theorem mem_of_emptyAll_eq {s : Str} (h : emptyAll names s = emptyAll names' s) {n : Str} (hne : n ≠ [])
    (hslot : slot n <:+: s) (hn : n ∈ names) : n ∈ names' := by
  induction s using slots_induction (names ++ names') with
  | nil => simp [slot] at hslot
  | slot m hm s ih =>
    have hmfree := braceFree_of_mem_append hnames hnames' hm
    rw [emptyAll, emptyAll, fillSlots_slot_append hnames _ hmfree, fillSlots_slot_append hnames' _ hmfree] at h
    by_cases hmem : m ∈ names <;> by_cases hmem' : m ∈ names'
    · rw [if_pos hmem, if_pos hmem'] at h
      rcases infix_slot_append (hnames n hn) hmfree hslot with rfl | hslot
      · exact hmem'
      · exact ih (List.append_cancel_left h) hslot
    · rw [if_pos hmem, if_neg hmem'] at h
      by_cases hm : m = []
      · subst hm
        rcases infix_slot_append (hnames n hn) hmfree hslot with rfl | hslot
        · exact absurd rfl hne
        · exact ih (List.append_cancel_left h) hslot
      · exact absurd h (not_slot_close hmfree hm _ _)
    · rw [if_neg hmem, if_pos hmem'] at h
      by_cases hm : m = []
      · subst hm
        rcases infix_slot_append (hnames n hn) hmfree hslot with rfl | hslot
        · exact absurd rfl hne
        · exact ih (List.append_cancel_left h) hslot
      · exact absurd h.symm (not_slot_close hmfree hm _ _)
    · exact absurd (List.mem_append.mp hm) (by simp [hmem, hmem'])
  | char c s hno ih =>
    rw [emptyAll, emptyAll, fillSlots_char _ fun n hn => hno n (List.mem_append_left _ hn),
      fillSlots_char _ fun n hn => hno n (List.mem_append_right _ hn)] at h
    rcases List.infix_cons_iff.mp hslot with hslot | hslot
    · exact absurd hslot (hno n (List.mem_append_left _ hn))
    · exact ih (List.cons.inj h).2 hslot

/-- A text with empty slots is one with values only if it has no slots, but for empty ones that stay. -/
theorem not_slots_of_emptyAll_eq {vals : Str → Str} (hvals : ∀ n ∈ names', ∃ c v, vals n = c :: v ∧ c ≠ '{')
    {s : Str} (h : emptyAll names s = fillSlots id names' vals s) :
    (∀ n ∈ names', ¬ slot n <:+: s) ∧ ∀ n ∈ names, n ≠ [] → ¬ slot n <:+: s := by
  induction s using slots_induction (names ++ names') with
  | nil => simp [slot]
  | slot m hm s ih =>
    have hmfree := braceFree_of_mem_append hnames hnames' hm
    rw [emptyAll, fillSlots_slot_append hnames _ hmfree, fillSlots_slot_append hnames' _ hmfree] at h
    by_cases hmem' : m ∈ names'
    · -- the value starts with another character
      obtain ⟨c, v, hv, hc⟩ := hvals m hmem'
      have hfirst : ∃ t, (if m ∈ names then ['{', '}'] else slot m) ++
          fillSlots id names (fun _ => ['{', '}']) s = '{' :: t := by
        split
        · exact ⟨_, rfl⟩
        · exact ⟨_, rfl⟩
      obtain ⟨t, ht⟩ := hfirst
      rw [ht, if_pos hmem', hv] at h
      exact absurd (List.cons.inj h).1.symm hc
    · have hmem : m ∈ names := (List.mem_append.mp hm).resolve_right hmem'
      rw [if_pos hmem, if_neg hmem'] at h
      by_cases hm : m = []
      · subst hm
        obtain ⟨hslots', hslots⟩ := ih (List.append_cancel_left h)
        refine ⟨fun n hn hslot => ?_, fun n hn hne hslot => ?_⟩
        · rcases infix_slot_append (hnames' n hn) hmfree hslot with rfl | hslot
          · exact hmem' hn
          · exact hslots' n hn hslot
        · rcases infix_slot_append (hnames n hn) hmfree hslot with rfl | hslot
          · exact hne rfl
          · exact hslots n hn hne hslot
      · exact absurd h (not_slot_close hmfree hm _ _)
  | char c s hno ih =>
    rw [emptyAll, fillSlots_char _ fun n hn => hno n (List.mem_append_left _ hn),
      fillSlots_char _ fun n hn => hno n (List.mem_append_right _ hn)] at h
    obtain ⟨hslots', hslots⟩ := ih (List.cons.inj h).2
    refine ⟨fun n hn hslot => ?_, fun n hn hne hslot => ?_⟩
    · rcases List.infix_cons_iff.mp hslot with hslot | hslot
      · exact hno n (List.mem_append_right _ hn) hslot
      · exact hslots' n hn hslot
    · rcases List.infix_cons_iff.mp hslot with hslot | hslot
      · exact hno n (List.mem_append_left _ hn) hslot
      · exact hslots n hn hne hslot

end

/-! ### The slots of a text -/

/-- The names of the slots of a text: what stands between two braces and has none itself. -/
def slotNames : Str → List Str
  | [] => []
  | c :: s =>
    let name := s.takeWhile fun d => d ≠ '{' ∧ d ≠ '}'
    if c = '{' ∧ (s.drop name.length).head? = some '}' then name :: slotNames s else slotNames s

theorem slot_prefix_iff {n s : Str} {c : Char} :
    BraceFree n ∧ slot n <+: c :: s ↔ n = s.takeWhile (fun d => d ≠ '{' ∧ d ≠ '}') ∧ c = '{' ∧
      (s.drop n.length).head? = some '}' := by
  constructor
  · rintro ⟨hn, t, ht⟩
    rw [slot_append] at ht
    obtain ⟨rfl, rfl⟩ := List.cons.inj ht
    have hall : ∀ d ∈ n, decide (d ≠ '{' ∧ d ≠ '}') = true := by
      intro d hd
      rw [decide_eq_true_eq]
      exact ⟨fun h => hn.1 (h ▸ hd), fun h => hn.2 (h ▸ hd)⟩
    refine ⟨?_, rfl, by simp⟩
    rw [List.takeWhile_append_of_pos hall]
    simp
  · rintro ⟨hname, rfl, hclose⟩
    have hfree : ∀ d ∈ n, d ≠ '{' ∧ d ≠ '}' := by
      intro d hd
      rw [hname] at hd
      simpa using List.mem_takeWhile_imp hd
    have hsplit : n ++ s.drop n.length = s := by
      obtain ⟨t, ht⟩ : n <+: s := hname ▸ List.takeWhile_prefix _
      rw [← ht, List.drop_left]
    obtain ⟨t, ht⟩ : ∃ t, s.drop n.length = '}' :: t := by
      cases hdrop : s.drop n.length with
      | nil => simp [hdrop] at hclose
      | cons d t => exact ⟨t, by simpa [hdrop] using hclose⟩
    refine ⟨⟨fun h => (hfree _ h).1 rfl, fun h => (hfree _ h).2 rfl⟩, t, ?_⟩
    rw [slot_append, ← ht, hsplit]

theorem mem_slotNames {n s : Str} : n ∈ slotNames s ↔ BraceFree n ∧ slot n <:+: s := by
  induction s with
  | nil => simp [slotNames, slot]
  | cons c s ih =>
    rw [List.infix_cons_iff, and_or_left, slot_prefix_iff, ← ih, slotNames]
    split
    · rename_i h
      rw [List.mem_cons]
      refine or_congr_left ⟨?_, fun h => h.1⟩
      rintro rfl
      exact ⟨rfl, h⟩
    · rename_i h
      refine ⟨.inr, fun hmem => hmem.resolve_left ?_⟩
      rintro ⟨rfl, hslot⟩
      exact h hslot

theorem braceFree_of_mem_slotNames {s : Str} : ∀ n ∈ slotNames s, BraceFree n := fun _ hn =>
  (mem_slotNames.mp hn).1

/-! ### Slots between separators -/

/-- Every slot of the text stands between separators, or at an end, and has one of the names or none. -/
def SlotsAlone (c : Char) (names : List Str) (s : Str) : Prop :=
  ∀ before n after, s = before ++ (slot n ++ after) → BraceFree n →
    (n ∈ names ∨ n = []) ∧ (∀ d ∈ before.getLast?, d = c) ∧ ∀ d ∈ after.head?, d = c

def NoSlotFirst (s : Str) : Prop := ∀ n, BraceFree n → ¬ slot n <+: s

theorem noSlotFirst_of_head {c : Char} (hc : c ≠ '{') {s : Str} (h : ∀ d ∈ s.head?, d = c) :
    NoSlotFirst s := by
  intro n _ hpre
  cases s with
  | nil => simp [slot] at hpre
  | cons d s => exact not_slot_first ((h d rfl).trans_ne hc) hpre

theorem slot_append_eq {m n s before after : Str} (hm : BraceFree m) (hn : BraceFree n)
    (h : slot n ++ s = before ++ (slot m ++ after)) :
    (before = [] ∧ m = n ∧ after = s) ∨ ∃ rest, before = slot n ++ rest ∧ s = rest ++ (slot m ++ after) := by
  cases before with
  | nil =>
    have hmn : m = n := slot_prefix_unique hm.2 hn.2 ⟨after, h.symm⟩
    subst hmn
    exact .inl ⟨rfl, rfl, (List.append_cancel_left h).symm⟩
  | cons c before =>
    rw [show slot n ++ s = '{' :: ((n ++ ['}']) ++ s) by simp [slot], List.cons_append] at h
    obtain ⟨rfl, htail⟩ := List.cons.inj h
    refine .inr ?_
    rcases List.append_eq_append_iff.mp htail with ⟨rest, hbefore, hs⟩ | ⟨rest, hclose, hslot⟩
    · exact ⟨rest, by rw [hbefore, slot]; rfl, hs⟩
    · cases rest with
      | nil => exact ⟨[], by simpa [slot] using hclose.symm, by simpa using hslot.symm⟩
      | cons d rest =>
        -- an opening brace inside the first slot
        obtain ⟨rfl, -⟩ := List.cons.inj hslot
        have hmem : '{' ∈ n ++ ['}'] := hclose ▸ List.mem_append_right _ (List.mem_cons_self ..)
        exact absurd hmem (by simp [hn.1])

section

variable {c : Char} {names : List Str}

theorem slotsAlone_nil : SlotsAlone c names [] := by
  intro before n after h _
  simp [slot] at h

theorem slotsAlone_tail {d : Char} {s : Str} (h : SlotsAlone c names (d :: s)) : SlotsAlone c names s := by
  intro before n after hs hn
  obtain ⟨hname, hbefore, hafter⟩ := h (d :: before) n after (by rw [hs]; rfl) hn
  refine ⟨hname, fun e he => ?_, hafter⟩
  cases before with
  | nil => cases he
  | cons b before => exact hbefore e (by rwa [List.getLast?_cons_cons])

theorem slotsAlone_separator (hc : c ≠ '{') {s : Str} :
    SlotsAlone c names (c :: s) ↔ SlotsAlone c names s := by
  refine ⟨fun h => slotsAlone_tail h, fun h before n after hs hn => ?_⟩
  cases before with
  | nil => exact absurd ⟨after, hs.symm⟩ (not_slot_first hc)
  | cons d before =>
    obtain ⟨rfl, htail⟩ := List.cons.inj hs
    obtain ⟨hname, hbefore, hafter⟩ := h before n after htail hn
    refine ⟨hname, fun e he => ?_, hafter⟩
    cases before with
    | nil => exact (Option.some.inj he).symm
    | cons b before => exact hbefore e (by rwa [List.getLast?_cons_cons] at he)

theorem slotsAlone_char {d : Char} (hd : d ≠ c) {s : Str} (hno : NoSlotFirst (d :: s)) :
    SlotsAlone c names (d :: s) ↔ SlotsAlone c names s ∧ NoSlotFirst s := by
  constructor
  · intro h
    have hfirst : NoSlotFirst s := by
      rintro n hn ⟨after, rfl⟩
      exact hd ((h [d] n after rfl hn).2.1 d rfl)
    exact ⟨slotsAlone_tail h, hfirst⟩
  · rintro ⟨h, hfirst⟩ before n after hs hn
    cases before with
    | nil => exact absurd ⟨after, hs.symm⟩ (hno n hn)
    | cons e before =>
      obtain ⟨rfl, htail⟩ := List.cons.inj hs
      obtain ⟨hname, hbefore, hafter⟩ := h before n after htail hn
      cases before with
      | nil => exact absurd ⟨after, htail.symm⟩ (hfirst n hn)
      | cons b before => exact ⟨hname, fun e he => hbefore e (by rwa [List.getLast?_cons_cons] at he), hafter⟩

theorem slotsAlone_slot (hc : c ≠ '{') {n s : Str} (hn : BraceFree n) :
    SlotsAlone c names (slot n ++ s) ↔
      (n ∈ names ∨ n = []) ∧ (∀ d ∈ s.head?, d = c) ∧ SlotsAlone c names s := by
  constructor
  · intro h
    obtain ⟨hname, -, hhead⟩ := h [] n s rfl hn
    refine ⟨hname, hhead, fun before m after hs hm => ?_⟩
    obtain ⟨hname, hbefore, hafter⟩ := h (slot n ++ before) m after (by simp [hs]) hm
    refine ⟨hname, fun d hd => ?_, hafter⟩
    cases before with
    | nil => cases hd
    | cons b before => exact hbefore d (by rw [List.getLast?_append, hd]; rfl)
  · rintro ⟨hname, hhead, h⟩ before m after hs hm
    rcases slot_append_eq hm hn hs with ⟨rfl, rfl, rfl⟩ | ⟨rest, rfl, hrest⟩
    · exact ⟨hname, by simp, hhead⟩
    · obtain ⟨hname, hbefore, hafter⟩ := h rest m after hrest hm
      cases rest with
      | nil => exact absurd ⟨after, hrest.symm⟩ (noSlotFirst_of_head hc hhead m hm)
      | cons b rest =>
        refine ⟨hname, fun d hd => hbefore d ?_, hafter⟩
        rw [List.getLast?_append, Option.or_of_isSome (by simp)] at hd
        exact hd

end

end Siesta.Lib
