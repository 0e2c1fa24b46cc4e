import Mathlib.Data.List.TakeWhile
import Siesta.Lib.Text

/-!
# Texts with slots

A slot is a name between braces.  `replaceAll (slot n) "{}"` empties the slots of one name; when the
names have no braces, it acts on each piece between two opening braces by itself (`replaceAll_slot`),
so the order in which several names are emptied does not matter (`emptySlots_comm`).
-/

namespace Siesta.Lib

/-- `{name}`. -/
def slot (name : Str) : Str := '{' :: (name ++ ['}'])

def emptySlots (s name : Str) : Str := replaceAll (slot name) ['{', '}'] s

theorem slot_ne_nil (name : Str) : slot name ≠ [] := List.cons_ne_nil _ _

/-! ### Piece by piece -/

/-- Applies `f` to what stands between an opening brace and the next one. -/
def mapPieces (f : Str → Str) (s : Str) : Str :=
  match s.splitOn '{' with
  | [] => []
  | piece :: pieces => piece ++ pieces.flatMap fun piece => '{' :: f piece

theorem mapPieces_eq (f : Str → Str) {s piece : Str} {pieces : List Str}
    (h : s.splitOn '{' = piece :: pieces) :
    mapPieces f s = piece ++ pieces.flatMap fun piece => '{' :: f piece := by
  rw [mapPieces, h]

/-- Characters that are no separator belong to the first piece. -/
theorem splitOn_append_of_notMem {c : Char} {u : Str} (hu : c ∉ u) {s piece : Str} {pieces : List Str}
    (h : s.splitOn c = piece :: pieces) : (u ++ s).splitOn c = (u ++ piece) :: pieces := by
  induction u with
  | nil => exact h
  | cons a u ih =>
    simp only [List.mem_cons, not_or] at hu
    rw [List.cons_append, List.splitOn_eq_splitOnP, List.splitOnP_cons_eq_if_modifyHead,
      ← List.splitOn_eq_splitOnP, ih hu.2]
    simp [Ne.symm hu.1]

theorem exists_splitOn (c : Char) (s : Str) :
    ∃ pieces, s.splitOn c = s.takeWhile (· ≠ c) :: pieces := ⟨_, splitOn_eq_cons c s⟩

theorem notMem_of_mem_splitOn {c : Char} {s piece : Str} (h : piece ∈ s.splitOn c) : c ∉ piece := by
  induction s generalizing piece with
  | nil => simp_all
  | cons a s ih =>
    obtain ⟨pieces, hs⟩ := exists_splitOn c s
    by_cases ha : a = c
    · subst ha
      rw [splitOn_sep_cons, List.mem_cons] at h
      rcases h with rfl | h
      · exact List.not_mem_nil
      · exact ih h
    · have hcons := splitOn_append_of_notMem (u := [a]) (by simpa using Ne.symm ha) hs
      rw [List.singleton_append] at hcons
      rw [hcons, List.mem_cons] at h
      rcases h with rfl | h
      · have hfirst : c ∉ s.takeWhile (· ≠ c) := ih (hs ▸ List.mem_cons_self ..)
        rw [List.singleton_append, List.mem_cons, not_or]
        exact ⟨Ne.symm ha, hfirst⟩
      · exact ih (hs ▸ List.mem_cons_of_mem _ h)

theorem mapPieces_cons {f : Str → Str} {c : Char} (hc : c ≠ '{') (s : Str) :
    mapPieces f (c :: s) = c :: mapPieces f s := by
  obtain ⟨pieces, hs⟩ := exists_splitOn '{' s
  have hcons := splitOn_append_of_notMem (u := [c]) (by simp [Ne.symm hc]) hs
  rw [List.singleton_append] at hcons
  rw [mapPieces_eq f hcons, mapPieces_eq f hs]
  rfl

/-- The name is dropped from a piece that starts with it and a closing brace. -/
def dropName (name piece : Str) : Str :=
  if (name ++ ['}']) <+: piece then piece.drop name.length else piece

theorem dropName_append (name s : Str) : dropName name (name ++ '}' :: s) = '}' :: s := by
  have hpre : (name ++ ['}']) <+: name ++ '}' :: s := ⟨s, by simp⟩
  rw [dropName, if_pos hpre, List.drop_left]

/-- **Emptying the slots of a name, piece by piece.** -/
theorem emptySlots_eq_mapPieces {name : Str} (hname : '{' ∉ name) (s : Str) :
    emptySlots s name = mapPieces (dropName name) s := by
  have hne := slot_ne_nil name
  induction hlen : s.length using Nat.strong_induction_on generalizing s with
  | _ n ih =>
    cases s with
    | nil => simp [emptySlots, hne, mapPieces]
    | cons c s =>
      rw [List.length_cons] at hlen
      obtain ⟨pieces, hs⟩ := exists_splitOn '{' s
      by_cases hc : c = '{'
      · subst hc
        have hbrace : ('{' :: s).splitOn '{' = [] :: s.takeWhile (· ≠ '{') :: pieces := by
          rw [splitOn_sep_cons, hs]
        rw [mapPieces_eq _ hbrace]
        by_cases hpre : (name ++ ['}']) <+: s
        · -- a slot of the name
          obtain ⟨t, rfl⟩ := hpre
          obtain ⟨pieces', ht⟩ := exists_splitOn '{' t
          have hsplit := splitOn_append_of_notMem (u := name ++ ['}']) (by simp [hname]) ht
          obtain ⟨hpiece, rfl⟩ := List.cons.inj (hs.symm.trans hsplit)
          have ht' : emptySlots t name = mapPieces (dropName name) t := by
            refine ih t.length ?_ t rfl
            rw [List.length_append] at hlen
            omega
          rw [mapPieces_eq _ ht] at ht'
          rw [emptySlots, show '{' :: (name ++ ['}'] ++ t) = slot name ++ t from rfl,
            replaceAll_append hne, ← emptySlots, ht', hpiece]
          simp [dropName_append]
        · have hno : ¬ slot name <+: '{' :: s := fun h => hpre (List.cons_prefix_cons.mp h).2
          have hpiece : dropName name (s.takeWhile (· ≠ '{')) = s.takeWhile (· ≠ '{') :=
            if_neg fun h => hpre (h.trans (List.takeWhile_prefix _))
          have hs' : emptySlots s name = mapPieces (dropName name) s := ih s.length (by omega) s rfl
          rw [mapPieces_eq _ hs] at hs'
          rw [emptySlots, replaceAll_cons hne _ hno, ← emptySlots, hs', List.flatMap_cons, hpiece]
          rfl
      · have hno : ¬ slot name <+: c :: s := fun h => hc (List.cons_prefix_cons.mp h).1.symm
        rw [mapPieces_cons hc, emptySlots, replaceAll_cons hne _ hno, ← emptySlots,
          ih s.length (by omega) s rfl]

/-! ### Several names -/

theorem splitOn_mapPieces {f : Str → Str} (hf : ∀ piece, '{' ∉ piece → '{' ∉ f piece) {s piece : Str}
    {pieces : List Str} (h : s.splitOn '{' = piece :: pieces) :
    (mapPieces f s).splitOn '{' = piece :: pieces.map f := by
  have hall : ∀ p ∈ piece :: pieces, '{' ∉ p := fun p hp => by
    rw [← h] at hp
    exact notMem_of_mem_splitOn hp
  have key : ∀ (pieces : List Str) (u : Str), '{' ∉ u → (∀ p ∈ pieces, '{' ∉ p) →
      (u ++ pieces.flatMap fun piece => '{' :: f piece).splitOn '{' = u :: pieces.map f := by
    intro pieces
    induction pieces with
    | nil =>
      intro u hu _
      simpa using splitOn_append_of_notMem hu (List.splitOn_nil '{')
    | cons p pieces ih =>
      intro u hu hp
      have hrest := ih (f p) (hf p (hp p (by simp))) fun q hq => hp q (by simp [hq])
      have hbrace := splitOn_sep_cons '{' (f p ++ pieces.flatMap fun piece => '{' :: f piece)
      rw [hrest] at hbrace
      simpa using splitOn_append_of_notMem hu hbrace
  rw [mapPieces_eq f h]
  exact key pieces piece (hall piece (by simp)) fun p hp => hall p (by simp [hp])

theorem mapPieces_mapPieces {f g : Str → Str} (hg : ∀ piece, '{' ∉ piece → '{' ∉ g piece) (s : Str) :
    mapPieces f (mapPieces g s) = mapPieces (f ∘ g) s := by
  obtain ⟨pieces, hs⟩ := exists_splitOn '{' s
  rw [mapPieces_eq f (splitOn_mapPieces hg hs), mapPieces_eq (f ∘ g) hs, List.flatMap_map]
  rfl

theorem brace_notMem_dropName {name piece : Str} (h : '{' ∉ piece) : '{' ∉ dropName name piece := by
  unfold dropName
  split
  · exact fun hm => h (List.mem_of_mem_drop hm)
  · exact h

theorem eq_of_prefix_close {n s t : Str} (hn : '}' ∉ n) (hpre : (n ++ ['}']) <+: s ++ '}' :: t)
    (hs : '}' ∉ s) : n = s := by
  obtain ⟨u, hu⟩ := hpre
  rw [List.append_assoc] at hu
  -- both are what stands before the first closing brace
  have htake := congrArg (List.takeWhile (· ≠ '}')) hu
  have hall : ∀ {l : Str}, '}' ∉ l → ∀ c ∈ l, decide (c ≠ '}') = true := fun hl c hc => by
    simp only [decide_eq_true_eq]
    rintro rfl
    exact hl hc
  rw [List.takeWhile_append_of_pos (hall hn), List.takeWhile_append_of_pos (hall hs)] at htake
  simpa using htake

theorem dropName_comm {a b : Str} (ha : '}' ∉ a) (hb : '}' ∉ b) (piece : Str) :
    dropName a (dropName b piece) = dropName b (dropName a piece) := by
  have hstill : ∀ {n : Str} (t : Str), '}' ∉ n → dropName n ('}' :: t) = '}' :: t := by
    intro n t hn
    unfold dropName
    split
    · rename_i hpre
      rw [eq_of_prefix_close hn (s := []) hpre (by simp)]
      rfl
    · rfl
  by_cases hbpre : (b ++ ['}']) <+: piece
  · obtain ⟨t, rfl⟩ := hbpre
    rw [List.append_assoc, List.singleton_append, dropName_append, hstill t ha]
    by_cases hapre : (a ++ ['}']) <+: b ++ '}' :: t
    · rw [eq_of_prefix_close ha hapre hb, dropName_append, hstill t hb]
    · rw [dropName.eq_def a, if_neg hapre, dropName_append]
  · rw [dropName.eq_def b piece, if_neg hbpre]
    by_cases hapre : (a ++ ['}']) <+: piece
    · obtain ⟨t, rfl⟩ := hapre
      rw [List.append_assoc, List.singleton_append, dropName_append, hstill t hb]
    · rw [dropName, if_neg hapre, dropName, if_neg hbpre]

/-- **The names can be emptied in any order.** -/
theorem emptySlots_comm {a b : Str} (ha : '{' ∉ a ∧ '}' ∉ a) (hb : '{' ∉ b ∧ '}' ∉ b) (s : Str) :
    emptySlots (emptySlots s a) b = emptySlots (emptySlots s b) a := by
  rw [emptySlots_eq_mapPieces hb.1, emptySlots_eq_mapPieces ha.1, emptySlots_eq_mapPieces ha.1,
    emptySlots_eq_mapPieces hb.1, mapPieces_mapPieces (fun _ => brace_notMem_dropName),
    mapPieces_mapPieces (fun _ => brace_notMem_dropName)]
  congr 1
  funext piece
  exact dropName_comm hb.2 ha.2 piece

theorem foldl_emptySlots_perm {names names' : List Str} (h : names.Perm names')
    (hnames : ∀ n ∈ names, '{' ∉ n ∧ '}' ∉ n) (s : Str) :
    names.foldl emptySlots s = names'.foldl emptySlots s :=
  h.foldl_eq' (fun a ha b hb s => emptySlots_comm (hnames a ha) (hnames b hb) s) s

/-! ### Empty slots -/

/-- The first empty slot is the one behind a text that has none. -/
theorem cutAt_braces {before : Str} (h : ¬ ['{', '}'] <:+: before) (after : Str) :
    cutAt ['{', '}'] (before ++ '{' :: '}' :: after) = some (before, after) := by
  induction before with
  | nil => simp [cutAt]
  | cons c before ih =>
    have hno : ¬ ['{', '}'] <+: (c :: before) ++ '{' :: '}' :: after := by
      intro hpre
      cases before with
      | nil => simp at hpre
      | cons d before =>
        refine h (List.IsPrefix.isInfix ?_)
        simpa using hpre
    have hrest : ¬ ['{', '}'] <:+: before := fun hin => h (List.infix_cons hin)
    rw [List.cons_append] at hno
    rw [List.cons_append, cutAt, if_neg (by rwa [List.isPrefixOf_iff_prefix]), ih hrest]
    rfl

theorem emptySlots_of_cutAt {name s before after : Str} (h : cutAt (slot name) s = some (before, after)) :
    emptySlots s name = before ++ '{' :: '}' :: emptySlots after name := by
  rw [emptySlots, replaceAll_eq (slot_ne_nil name), h]
  simp [emptySlots]

theorem emptySlots_of_no_slot {name s : Str} (h : ¬ slot name <:+: s) : emptySlots s name = s :=
  replaceAll_of_no_occurrence (slot_ne_nil name) _ h

theorem emptySlots_slot (name : Str) : emptySlots (slot name) name = ['{', '}'] := by
  have happend := replaceAll_append (slot_ne_nil name) ['{', '}'] []
  rwa [List.append_nil, replaceAll_nil (slot_ne_nil name)] at happend

theorem braces_of_slot {name s : Str} (h : slot name <:+: s) : ['{', '}'] <:+: emptySlots s name := by
  obtain ⟨before, after, hcut⟩ := exists_cutAt h
  rw [emptySlots_of_cutAt hcut]
  exact ⟨before, emptySlots after name, by simp⟩

theorem braces_emptySlots {s : Str} (name : Str) (h : ['{', '}'] <:+: s) :
    ['{', '}'] <:+: emptySlots s name := by
  by_cases hslot : slot name <:+: s
  · exact braces_of_slot hslot
  · rwa [emptySlots_of_no_slot hslot]

/-- A text without empty slots in which the slots of several names have been emptied had none of them. -/
theorem foldl_emptySlots_of_no_braces {names : List Str} {s : Str}
    (h : ¬ ['{', '}'] <:+: names.foldl emptySlots s) :
    names.foldl emptySlots s = s ∧ ∀ n ∈ names, ¬ slot n <:+: s := by
  induction names generalizing s with
  | nil => exact ⟨rfl, by simp⟩
  | cons n names ih =>
    rw [List.foldl_cons] at h ⊢
    obtain ⟨hsame, hnone⟩ := ih h
    rw [hsame] at h
    have hslot : ¬ slot n <:+: s := fun hs => h (braces_of_slot hs)
    rw [emptySlots_of_no_slot hslot] at hsame hnone ⊢
    exact ⟨hsame, List.forall_mem_cons.mpr ⟨hslot, hnone⟩⟩

theorem foldl_emptySlots_of_no_slots {names : List Str} {s : Str} (h : ∀ n ∈ names, ¬ slot n <:+: s) :
    names.foldl emptySlots s = s := by
  induction names with
  | nil => rfl
  | cons n names ih =>
    have hn := h n (List.mem_cons_self ..)
    rw [List.foldl_cons, emptySlots_of_no_slot hn]
    exact ih fun m hm => h m (List.mem_cons_of_mem _ hm)

/-- A slot without the separator is emptied within its segment. -/
theorem splitOn_emptySlots {c : Char} {name : Str} (hc : c ∉ slot name) (s : Str) :
    (emptySlots s name).splitOn c = (s.splitOn c).map (emptySlots · name) := by
  have hne := slot_ne_nil name
  have hbraces : c ∉ ['{', '}'] := by
    simp only [slot, List.mem_cons, List.mem_append, not_or] at hc
    simpa using ⟨hc.1, hc.2.2.1⟩
  induction hlen : s.length using Nat.strong_induction_on generalizing s with
  | _ n ih =>
    by_cases hpre : slot name <+: s
    · obtain ⟨t, rfl⟩ := hpre
      obtain ⟨ys, ht⟩ := exists_splitOn c t
      have htail : (emptySlots t name).splitOn c = (t.splitOn c).map (emptySlots · name) := by
        refine ih t.length ?_ t rfl
        have hpos := List.length_pos_of_ne_nil hne
        rw [List.length_append] at hlen
        omega
      rw [ht, List.map_cons] at htail
      rw [splitOn_append_of_notMem hc ht, List.map_cons, emptySlots, replaceAll_append hne, ← emptySlots,
        splitOn_append_of_notMem hbraces htail, emptySlots, emptySlots, replaceAll_append hne]
    · cases s with
      | nil => simp [emptySlots, hne]
      | cons a s =>
        rw [List.length_cons] at hlen
        have htail := ih s.length (by omega) s rfl
        rw [emptySlots, replaceAll_cons hne _ hpre, ← emptySlots]
        by_cases ha : a = c
        · subst ha
          rw [splitOn_sep_cons, splitOn_sep_cons, htail, List.map_cons, emptySlots, replaceAll_nil hne]
        · obtain ⟨ys, hs⟩ := exists_splitOn c s
          have hfirst : ¬ slot name <+: a :: s.takeWhile (· ≠ c) := fun h =>
            hpre (h.trans (List.cons_prefix_cons.mpr ⟨rfl, List.takeWhile_prefix _⟩))
          have hsplit := splitOn_append_of_notMem (u := [a]) (by simpa using Ne.symm ha) hs
          rw [hs, List.map_cons] at htail
          have hsplit' := splitOn_append_of_notMem (u := [a]) (by simpa using Ne.symm ha) htail
          rw [List.singleton_append] at hsplit hsplit'
          rw [hsplit, hsplit', List.map_cons, List.singleton_append, List.singleton_append,
            emptySlots.eq_def (a :: _), replaceAll_cons hne _ hfirst, ← emptySlots]

theorem length_emptySlots_le (s name : Str) : (emptySlots s name).length ≤ s.length := by
  induction hlen : s.length using Nat.strong_induction_on generalizing s with
  | _ n ih =>
    by_cases hslot : slot name <:+: s
    · obtain ⟨before, after, hcut⟩ := exists_cutAt hslot
      have hs := congrArg List.length (cutAt_eq_some hcut)
      simp only [List.length_append, slot, List.length_cons, List.length_nil] at hs
      have hafter := ih after.length (by omega) after rfl
      rw [emptySlots_of_cutAt hcut]
      simp only [List.length_append, List.length_cons]
      omega
    · rw [emptySlots_of_no_slot hslot, hlen]

theorem length_emptySlots_lt {s name : Str} (h : slot name <:+: s) :
    (emptySlots s name).length + name.length ≤ s.length := by
  obtain ⟨before, after, hcut⟩ := exists_cutAt h
  have hs := congrArg List.length (cutAt_eq_some hcut)
  have hafter := length_emptySlots_le after name
  simp only [List.length_append, slot, List.length_cons, List.length_nil] at hs
  rw [emptySlots_of_cutAt hcut]
  simp only [List.length_append, List.length_cons]
  omega

/-- Where the first empty slot stands for the first slot of another name of the same length or less, the
two names are one. -/
theorem eq_of_emptySlots {name wire s before after : Str} (hname : '{' ∉ name)
    (hlen : wire.length ≤ name.length) (hnil : wire = [] → name = [])
    (hs : s = before ++ slot wire ++ after) (hfirst : cutAt ['{', '}'] (emptySlots s name) = some (before, after)) :
    name = wire := by
  have htmpl : emptySlots s name = before ++ '{' :: '}' :: after := by simpa using cutAt_eq_some hfirst
  have hslen := congrArg List.length hs
  have htlen := congrArg List.length htmpl
  simp only [List.length_append, slot, List.length_cons, List.length_nil] at hslen htlen
  by_cases hwire : wire = []
  · rw [hwire, hnil hwire]
  · by_cases hslot : slot name <:+: s
    · obtain ⟨a, b, hcut⟩ := exists_cutAt hslot
      have hsab := cutAt_eq_some hcut
      have hlen' := congrArg List.length hsab
      have hempty := emptySlots_of_cutAt hcut
      have hb := length_emptySlots_le b name
      have htlen' := congrArg List.length hempty
      simp only [List.length_append, slot, List.length_cons, List.length_nil] at hlen' htlen'
      -- one slot was emptied
      have hnone : ¬ slot name <:+: b := by
        intro hb'
        have := length_emptySlots_lt hb'
        have : wire.length = 0 := by omega
        exact hwire (List.length_eq_zero_iff.mp this)
      rw [emptySlots_of_no_slot hnone] at hempty htlen'
      have heq : before ++ '{' :: '}' :: after = a ++ '{' :: '}' :: b := htmpl.symm.trans hempty
      have hle : before.length ≤ a.length := length_le_of_cutAt hfirst (by simpa using hempty)
      obtain ⟨a', ha, hafter⟩ : ∃ a', a = before ++ a' ∧ '{' :: '}' :: after = a' ++ '{' :: '}' :: b := by
        rcases List.append_eq_append_iff.mp heq with h | ⟨c, hc, hb⟩
        · exact h
        · have hcnil : c = [] := by
            rw [hc, List.length_append] at hle
            exact List.length_eq_zero_iff.mp (by omega)
          rw [hcnil] at hc hb
          exact ⟨[], by simpa using hc.symm, by simpa using hb.symm⟩
      have hslots : slot wire ++ after = a' ++ (slot name ++ b) := by
        rw [hs, ha, List.append_assoc, List.append_assoc, List.append_assoc] at hsab
        exact List.append_cancel_left hsab
      match a' with
      | [] =>
        have hlength : (slot wire).length = (slot name).length := by
          simp only [slot, List.length_append, List.length_cons]
          omega
        rw [List.nil_append] at hslots
        have hsame := (List.append_inj hslots hlength).1
        simpa [slot] using hsame.symm
      | [c] => simp at hafter
      | c :: d :: a' =>
        -- the name would end with a brace
        obtain ⟨hc, hd, rfl⟩ : c = '{' ∧ d = '}' ∧ after = a' ++ '{' :: '}' :: b := by
          simpa [eq_comm] using hafter
        rw [hc, hd] at hslots
        have hends : (slot wire ++ a' ++ ['{']) ++ '}' :: b = ('{' :: '}' :: a' ++ '{' :: name) ++ '}' :: b := by
          simpa [slot] using hslots
        have hends := List.append_cancel_right hends
        have hne : name ≠ [] := by
          rintro rfl
          exact hwire (List.length_eq_zero_iff.mp (Nat.le_zero.mp hlen))
        have hlast : name.getLast hne = '{' := by
          have hgets := congrArg List.getLast? hends
          rw [List.getLast?_concat, List.getLast?_append, List.getLast?_cons, List.getLast?_eq_some_getLast hne] at hgets
          simpa using hgets.symm
        exact absurd (hlast ▸ List.getLast_mem hne) hname
    · -- nothing was emptied, so the slot would be empty already
      rw [emptySlots_of_no_slot hslot] at htlen
      have : wire.length = 0 := by omega
      exact absurd (List.length_eq_zero_iff.mp this) hwire

/-! ### Filling slots -/

inductive PathToken (α : Type) where
  | char (c : Char)
  | slot (a : α)

section

variable {α : Type} (name : α → Str) (as : List α)

/-- Reads a path from left to right: at a slot of one of `as`, its characters are skipped. -/
def pathTokens : ℕ → Str → List (PathToken α)
  | _, [] => []
  | skip + 1, _ :: s => pathTokens skip s
  | 0, c :: s =>
    match as.find? fun a => (slot (name a)).isPrefixOf (c :: s) with
    | some a => .slot a :: pathTokens (name a).length.succ s
    | none => .char c :: pathTokens 0 s

/-- The path with a value in every slot. -/
def fillTokens (vals : α → Str) (tokens : List (PathToken α)) : Str :=
  tokens.flatMap fun
    | .char c => [c]
    | .slot a => vals a

/-- Every occurrence of a slot of `as` is replaced by its value. -/
def fillSlots (vals : α → Str) (s : Str) : Str := fillTokens vals (pathTokens name as 0 s)

end

section

variable {α : Type} {name : α → Str} {as : List α}

theorem pathTokens_drop (skip : ℕ) (s : Str) :
    pathTokens name as skip s = pathTokens name as 0 (s.drop skip) := by
  induction skip generalizing s with
  | zero => rfl
  | succ skip ih =>
    cases s with
    | nil => rfl
    | cons c s => exact ih s

theorem fillSlots_of_no_slots (vals : α → Str) {s : Str} (h : ∀ a ∈ as, ¬ slot (name a) <:+: s) :
    fillSlots name as vals s = s := by
  induction s with
  | nil => rfl
  | cons c s ih =>
    have hnone : as.find? (fun a => (slot (name a)).isPrefixOf (c :: s)) = none := by
      rw [List.find?_eq_none]
      intro a ha hpre
      exact h a ha (List.isPrefixOf_iff_prefix.mp hpre).isInfix
    have hrest := ih fun a ha hin => h a ha (List.infix_cons hin)
    rw [fillSlots, pathTokens, hnone]
    exact congrArg (c :: ·) hrest

theorem fillSlots_of_cutAt (vals : α → Str) {a : α} {s before after : Str}
    (h : cutAt (slot (name a)) s = some (before, after)) :
    fillSlots name [a] vals s = before ++ vals a ++ fillSlots name [a] vals after := by
  induction s generalizing before with
  | nil =>
    have hs := congrArg List.length (cutAt_eq_some h)
    simp [slot] at hs
  | cons c s ih =>
    unfold cutAt at h
    split at h
    · rename_i hpre
      obtain ⟨rfl, rfl⟩ := Prod.mk.inj (Option.some.inj h)
      have hfind : [a].find? (fun a => (slot (name a)).isPrefixOf (c :: s)) = some a := by simp [hpre]
      have hslot : (slot (name a)).length = (name a).length.succ + 1 := by simp [slot]
      rw [fillSlots, pathTokens, hfind, hslot, List.drop_succ_cons, List.nil_append, fillSlots,
        ← pathTokens_drop]
      rfl
    · rename_i hpre
      obtain ⟨⟨p, q⟩, he, heq⟩ := Option.map_eq_some_iff.mp h
      obtain ⟨rfl, rfl⟩ := Prod.mk.inj heq
      have hfind : [a].find? (fun a => (slot (name a)).isPrefixOf (c :: s)) = none := by simp [hpre]
      rw [fillSlots, pathTokens, hfind]
      exact congrArg (c :: ·) (ih he)

variable (name) in
theorem exists_slot_token {a : α} (ha : a ∈ as) {s : Str} (h : slot (name a) <:+: s) :
    ∃ b, PathToken.slot b ∈ pathTokens name as 0 s := by
  induction s with
  | nil => simp [slot] at h
  | cons c s ih =>
    rw [pathTokens]
    cases hfind : as.find? fun a => (slot (name a)).isPrefixOf (c :: s) with
    | some b => exact ⟨b, List.mem_cons_self ..⟩
    | none =>
      rcases List.infix_cons_iff.mp h with hpre | hin
      · exact absurd (List.isPrefixOf_iff_prefix.mpr hpre) (List.find?_eq_none.mp hfind a ha)
      · obtain ⟨b, hb⟩ := ih hin
        exact ⟨b, List.mem_cons_of_mem _ hb⟩

theorem fillTokens_congr {f g : α → Str} {tokens : List (PathToken α)}
    (h : ∀ a, PathToken.slot a ∈ tokens → f a = g a) : fillTokens f tokens = fillTokens g tokens := by
  refine List.flatMap_congr fun token ht => ?_
  cases token with
  | char c => rfl
  | slot a => exact h a ht

/-- Two fillings with values that differ at once, where they differ, are the same only if they differ at
no filled slot. -/
theorem eq_of_fillTokens_eq {f g : α → Str} {tokens : List (PathToken α)}
    (hfg : ∀ a, f a = g a ∨ ∃ c d u v, f a = c :: u ∧ g a = d :: v ∧ c ≠ d)
    (h : fillTokens f tokens = fillTokens g tokens) : ∀ a, PathToken.slot a ∈ tokens → f a = g a := by
  induction tokens with
  | nil => simp
  | cons token tokens ih =>
    cases token with
    | char c =>
      intro a ha
      rcases List.mem_cons.mp ha with ha | ha
      · cases ha
      · exact ih (List.cons.inj h).2 a ha
    | slot b =>
      have h : f b ++ fillTokens f tokens = g b ++ fillTokens g tokens := h
      rcases hfg b with hb | ⟨c, d, u, v, hc, hd, hne⟩
      · intro a ha
        rcases List.mem_cons.mp ha with ha | ha
        · obtain rfl := PathToken.slot.inj ha
          exact hb
        · rw [hb] at h
          exact ih (List.append_cancel_left h) a ha
      · rw [hc, hd] at h
        exact absurd (List.cons.inj h).1 hne

end

end Siesta.Lib
