import FilterShell.Proofs.Token.Lines
import FilterShell.Proofs.Value.Exceptions
import FilterShell.Value.Layout

/-!
# The lines of drained values

A terminal that can style shows a value over several lines.  If it adds nothing to the text, these lines and
the text of the value are cut into the same tokens (`Value.same_tokens`).  The marks of the tokens are found
along the value; both the text and the lines are compared with them.
-/

namespace FilterShell

variable {k : Value} {ls : List Text} {r : StateM Store Lines}

open Reading
open Token (Cut Laid separated)

variable {s : Store} {home : Nat → Value} {t : Terminal} {ms ns : List Mark}

/-- The terminal shows styled text, but its styles add nothing to the text. -/
structure Terminal.Unadorned (t : Terminal) : Prop where
  styles : t.styles = true
  bold : ∀ u, t.bold u = u
  color : ∀ n u, t.color n u = u

/-- There are lines, without a fault, that are cut into the marks; the store stays as it is. -/
def Lays (s : Store) (r : StateM Store Lines) (ms : List Mark) : Prop :=
  ∃ ls, r.run s = ({ lines := ls }, s) ∧ ls ≠ [] ∧ Laid ls ms

/-! ### Putting lines together -/

namespace Lines

theorem run_bind {α β : Type} {r : StateM Store α} {f : α → StateM Store β} {x : α} {y : β × Store}
    {s' : Store} (hr : r.run s = (x, s')) (hf : (f x).run s' = y) : (r >>= f).run s = y := by
  rw [StateT.run_bind, hr]
  exact hf

theorem run_andThen {ls' : List Text} (h : r.run s = ({ lines := ls' }, s)) :
    (andThen { lines := ls } r).run s = ({ lines := ls ++ ls' }, s) :=
  run_bind h rfl

theorem tailed_concat (ls : List Text) (u mark : Text) :
    ({ lines := ls ++ [u] } : Lines).tailed mark = { lines := ls ++ [u ++ mark] } := by
  simp [tailed]

end Lines

theorem lays_one {u : Text} (h : Cut ms u) : Lays s (return { lines := [u] }) ms :=
  ⟨[u], rfl, List.cons_ne_nil _ _, Token.laid_one h⟩

/-- The last of the lines, and those before it. -/
theorem Lays.concat (h : Lays s r ms) :
    ∃ ls u, r.run s = ({ lines := ls ++ [u] }, s) ∧ Laid (ls ++ [u]) ms := by
  obtain ⟨ls, hrun, hne, hlaid⟩ := h
  obtain ⟨ls, u, rfl⟩ := (List.eq_nil_or_concat' ls).resolve_left hne
  exact ⟨ls, u, hrun, hlaid⟩

theorem Lays.andThen (hls : Laid ls ms) (h : Lays s r ns) :
    Lays s (Lines.andThen { lines := ls } r) (ms ++ ns) := by
  obtain ⟨ls', hrun, hne, hlaid⟩ := h
  exact ⟨ls ++ ls', Lines.run_andThen hrun, fun h => hne (List.append_eq_nil_iff.1 h).2, hls.append hlaid⟩

namespace Terminal

variable {below : Value → StateM Store Lines} {M : Value → List Mark}

/-! ### Items and entries -/

section Parts

variable (ht : t.Unadorned)

include ht

theorem items_lays {vs : List Value} (hne : vs ≠ []) (h : ∀ v ∈ vs, Lays s (below v) (M v)) :
    Lays s (t.items below vs) (separated (vs.map M)) := by
  induction vs with
  | nil => exact absurd rfl hne
  | cons v vs ih =>
    obtain ⟨hv, hvs⟩ := List.forall_mem_cons.1 h
    cases vs with
    | nil =>
      obtain ⟨ls, hrun, hls, hlaid⟩ := hv
      exact ⟨_, Lines.run_bind hrun rfl, by simpa using hls, hlaid.indented⟩
    | cons w vs =>
      obtain ⟨ls, u, hrun, hlaid⟩ := hv.concat
      have hlaid := hlaid.indented
      rw [List.map_append, List.map_singleton] at hlaid
      obtain ⟨ls', hrest, hne', hlaid'⟩ :=
        Lays.andThen (hlaid.snoc_symbol Token.symbol_comma) (ih (List.cons_ne_nil w vs) hvs)
      refine ⟨ls', Lines.run_bind hrun ?_, hne', ?_⟩
      · rw [ht.color, Lines.indented, List.map_append, List.map_singleton, Lines.tailed_concat]
        exact hrest
      · simpa [separated] using hlaid'

/-- The last line of the key carries the value. -/
theorem entry_run {comma : Option Text} {v : Value} {r : List Text} {last x : Text} {value : Lines}
    (hkey : (below k).run s = ({ lines := ls ++ [last] }, s)) (hvalue : (below v).run s = (value, s))
    (hmarked : comma.elim value value.tailed = { lines := x :: r }) :
    (t.entry below comma k v).run s = (({ lines := ls ++ (last ++ Text.ofString ": " ++ x) :: r } :
      Lines).indented, s) := by
  refine Lines.run_bind hkey ?_
  rw [List.reverse_append, List.reverse_singleton, List.singleton_append]
  refine Lines.run_bind hvalue ?_
  rw [ht.color, List.reverse_reverse]
  cases comma with
  | none =>
    obtain rfl : value = { lines := x :: r } := hmarked
    rfl
  | some m =>
    obtain hmarked : value.tailed m = { lines := x :: r } := hmarked
    simp only [hmarked]
    rfl

/-- The lines of an entry, with nothing behind it. -/
theorem entry_lays {v : Value} (hk : Lays s (below k) ms) (hv : Lays s (below v) ns) :
    Lays s (t.entry below none k v) (ms ++ (.colon, none) :: ns) := by
  obtain ⟨ls, last, hkey, hlaid⟩ := hk.concat
  obtain ⟨ls', hvalue, hne, hlaid'⟩ := hv
  obtain ⟨x, r, rfl⟩ := List.exists_cons_of_ne_nil hne
  exact ⟨_, entry_run ht hkey hvalue rfl, by simp, (hlaid.colon hlaid').indented⟩

/-- The lines of an entry, with a comma behind it. -/
theorem entry_lays_comma {v : Value} (hk : Lays s (below k) ms) (hv : Lays s (below v) ns) :
    ∃ ls, (t.entry below (some (t.color 15 ",")) k v).run s = ({ lines := ls }, s) ∧
      Laid ls (ms ++ (.colon, none) :: ns ++ [(.comma, none)]) := by
  obtain ⟨ls, last, hkey, hlaid⟩ := hk.concat
  obtain ⟨ls', u, hvalue, hlaid'⟩ := hv.concat
  have hmarked := hlaid'.snoc_symbol Token.symbol_comma
  obtain ⟨x, r, hlines⟩ := List.exists_cons_of_ne_nil
    (List.append_ne_nil_of_right_ne_nil ls' (List.cons_ne_nil (u ++ [Rune.ofChar ',']) []))
  rw [hlines] at hmarked
  refine ⟨_, entry_run ht hkey hvalue (r := r) (x := x) ?_, ?_⟩
  · rw [ht.color, ← hlines]
    exact Lines.tailed_concat _ _ _
  · rw [List.append_assoc ms, List.cons_append]
    exact (hlaid.colon hmarked).indented

/-- The marks of an entry. -/
def entryMarks (M : Value → List Mark) (p : Value × Value) : List Mark := M p.1 ++ (.colon, none) :: M p.2

/-- Entries are laid out in turn. -/
theorem entries_lays {es : List (Value × Value)} (hne : es ≠ [])
    (h : ∀ p ∈ es, Lays s (below p.1) (M p.1) ∧ Lays s (below p.2) (M p.2)) :
    Lays s (t.entries below es) (separated (es.map (entryMarks M))) := by
  induction es with
  | nil => exact absurd rfl hne
  | cons p es ih =>
    obtain ⟨⟨hk, hv⟩, hes⟩ := List.forall_mem_cons.1 h
    obtain ⟨k, v⟩ := p
    cases es with
    | nil => exact entry_lays ht hk hv
    | cons q es =>
      obtain ⟨ls, hrun, hlaid⟩ := entry_lays_comma ht hk hv
      obtain ⟨ls', hrest, hne', hlaid'⟩ := Lays.andThen hlaid (ih (List.cons_ne_nil q es) hes)
      refine ⟨ls', Lines.run_bind hrun hrest, hne', ?_⟩
      rw [List.append_assoc, List.singleton_append] at hlaid'
      exact hlaid'

/-! ### Brackets -/

/-- Brackets stand on lines of their own. -/
theorem enclosed_lays {before after : String} {o c : Rune} {ko kc : Token.Kind} {isEmpty : Bool}
    {inside : StateM Store Lines} (ho : Token.symbol? o = some ko) (hc : Token.symbol? c = some kc)
    (hbefore : Text.ofString before = [o]) (hafter : Text.ofString after = [c])
    (hnothing : isEmpty = true → ms = []) (hinside : isEmpty = false → Lays s inside ms) :
    Lays s (t.enclosed before after isEmpty inside) ((ko, none) :: (ms ++ [(kc, none)])) := by
  cases isEmpty with
  | true =>
    rw [hnothing rfl]
    have hline : t.bracket (before ++ after) = [o, c] := by
      rw [bracket, ht.color, ht.bold, ← List.singleton_append, ← hbefore, ← hafter]
      simp [Text.ofString]
    have hcut : Cut [(ko, none), (kc, none)] [o, c] := (Token.cut_symbol hc).cons_symbol ho
    have hlays : Lays s (return { lines := [[o, c]] }) [(ko, none), (kc, none)] := lays_one hcut
    rwa [← hline] at hlays
  | false =>
    have hopen : t.bracket before = [o] := by rw [bracket, ht.color, ht.bold, hbefore]
    have hclose : t.bracket after = [c] := by rw [bracket, ht.color, ht.bold, hafter]
    obtain ⟨ls, hrun, -, hlaid⟩ := hinside rfl
    have hfirst : Laid ([o] :: ls) ((ko, none) :: ms) := .cons (Token.cut_symbol ho) hlaid
    have hlast : Lays s (return { lines := [[c]] }) [(kc, none)] := lays_one (Token.cut_symbol hc)
    obtain ⟨ls', hrest, hne, hlaid'⟩ := Lays.andThen hfirst hlast
    refine ⟨ls', Lines.run_bind (Lines.run_andThen hrun) ?_, hne, hlaid'⟩
    rw [hopen, hclose]
    exact hrest

end Parts

/-! ### Levels -/

/-- The level below serves for the parts of a value. -/
theorem linesTo_eq (t : Terminal) (n : Nat) :
    ∃ m below, t.linesTo n = t.linesWith (.upTo m) below ∧ n ≤ m + 1 ∧
      ∀ v : Value, v.depth + 1 ≤ n → below v = t.linesTo (n - 1) v := by
  cases n with
  | zero => exact ⟨0, _, rfl, Nat.zero_le _, fun v hv => absurd hv (Nat.not_succ_le_zero _)⟩
  | succ n => exact ⟨n, _, rfl, Nat.le_refl _, fun v _ => rfl⟩

theorem stringLine_eq (ht : t.Unadorned) (u : Text) : t.stringLine u = u.literal := by
  have hrune : t.rune = Rune.escaped := by
    funext r
    rw [rune, ht.color]
  rw [stringLine, ht.color, hrune]
  rfl

end Terminal

namespace Value

variable {v : Value} {u : Text}

/-- The value has the text, and the text and the lines of the value are cut into the marks. -/
structure Displayed (s : Store) (t : Terminal) (v : Value) (u : Text) (ms : List Mark) : Prop where
  writes : Writes s v u
  cut : Cut ms u
  lays : ∀ n, v.depth ≤ n → Lays s (t.linesTo n v) ms

/-- A value that is shown on one line. -/
theorem displayed_flat (hcut : Cut ms u) (htext : ∀ R below, Answers s (textWith R below v) u)
    (hlines : ∀ R below, (t.linesWith R below v).run s = ({ lines := [u] }, s)) :
    Displayed s t v u ms where
  writes n _ := by
    obtain ⟨m, below, hlevel, -⟩ := textTo_eq n
    rw [hlevel]
    exact htext _ _
  cut := hcut
  lays n _ := by
    obtain ⟨m, below, hlevel, -⟩ := t.linesTo_eq n
    rw [hlevel]
    exact ⟨[u], hlines _ _, List.cons_ne_nil _ _, Token.laid_one hcut⟩

section Containers

variable {g : Value → Text} {M : Value → List Mark} {id : Nat}

/-- An array is displayed item by item. -/
theorem displayed_array (ht : t.Unadorned) {items : List Value} (hend : (s.get id).ended = true)
    (h : ∀ v ∈ items.take (s.get id).taken, Displayed s t v (g v) (M v)) :
    Displayed s t (.array id items) (Plain.bracketed "[" "]" ((items.take (s.get id).taken).map g))
      ((.openArray, none) :: (separated ((items.take (s.get id).taken).map M) ++ [(.closeArray, none)])) where
  writes := writes_array hend fun v hv => (h v hv).writes
  cut := Token.cut_bracketed Token.symbol_openArray Token.symbol_closeArray fun v hv => (h v hv).cut
  lays n hn := by
    obtain ⟨m, below, hlevel, -, hbelow⟩ := t.linesTo_eq n
    rw [hlevel]
    have henclosed : Lays s (t.enclosed "[" "]" (items.take (s.get id).taken).isEmpty
        (t.items below (items.take (s.get id).taken)))
        ((.openArray, none) :: (separated ((items.take (s.get id).taken).map M) ++
          [(.closeArray, none)])) := by
      refine Terminal.enclosed_lays ht Token.symbol_openArray Token.symbol_closeArray rfl rfl
        (fun hempty => ?_) fun hempty => Terminal.items_lays ht ?_ fun v hv => ?_
      · rw [List.isEmpty_iff.1 hempty]
        rfl
      · exact List.isEmpty_eq_false_iff.1 hempty
      · have hdepth : v.depth + 1 ≤ n := (depth_item (List.mem_of_mem_take hv)).trans hn
        rw [hbelow v hdepth]
        exact (h v hv).lays _ (by omega)
    obtain ⟨ls, hrun, hlaid⟩ := henclosed
    exact ⟨ls, Lines.run_bind (answers_allItems hend items) hrun, hlaid⟩

/-- Sorting the table by the keys alone gives the same. -/
theorem Drained.sortedKeys {pairs sorted : List (Value × Value)} (h : Drained s home (.object id pairs))
    (hperm : sorted.Perm (Relations.tableOf pairs (s.get id).entries))
    (hpairs : sorted.Pairwise fun p q => p.1.standing s < q.1.standing s) {m : Nat}
    (hm : depthPairs pairs ≤ m + 1) :
    Answers s (sortBy (fun p q : Value × Value => (Relations.upTo m).less p.1 q.1)
      (Relations.tableOf pairs (s.get id).entries)) sorted := by
  obtain ⟨-, -, htable⟩ := h.settledTo
  have hagrees : (Relations.upTo m).Agrees s (SettledTo s home (m + 1)) := Relations.upTo_agrees m
  have hless : Sorting.ByKey s (fun p : Value × Value => SettledTo s home (m + 1) p.1)
      (fun p q => (Relations.upTo m).less p.1 q.1) fun p => p.1.standing s :=
    fun p q hp hq => hagrees.less hp hq
  exact sortBy_unique hless (fun p hp => (htable.mem hp).1.mono hm) hperm hpairs

theorem displayed_object (ht : t.Unadorned) {pairs : List (Value × Value)}
    (hdrained : Drained s home (.object id pairs))
    (h : ∀ p ∈ Relations.tableOf pairs (s.get id).entries,
      Displayed s t p.1 (g p.1) (M p.1) ∧ Displayed s t p.2 (g p.2) (M p.2)) :
    ∃ u ms, Displayed s t (.object id pairs) u ms := by
  have hend : (s.get id).ended = true := hdrained.settledTo.1
  obtain ⟨sorted, hperm, hpairs, hsort⟩ := hdrained.sortedTable
  have hparts : ∀ p ∈ sorted,
      Displayed s t p.1 (g p.1) (M p.1) ∧ Displayed s t p.2 (g p.2) (M p.2) :=
    fun p hp => h p (hperm.mem_iff.1 hp)
  have hcut : ∀ p ∈ sorted, Cut (Terminal.entryMarks M p) (entryText g p) := by
    intro p hp
    rw [entryText, List.append_assoc]
    exact (hparts p hp).1.cut.append_symbol ((hparts p hp).2.cut.cons_blank (by decide))
      Token.symbol_colon
  refine ⟨_, _, writes_object hend hperm hsort fun p hp =>
      ⟨(hparts p hp).1.writes, (hparts p hp).2.writes⟩,
    Token.cut_bracketed Token.symbol_openObject Token.symbol_closeObject hcut, fun n hn => ?_⟩
  have hn : depthPairs pairs ≤ n := hn
  obtain ⟨m, below, hlevel, hm, hbelow⟩ := t.linesTo_eq n
  rw [hlevel]
  have henclosed : Lays s (t.enclosed "\x7b" "\x7d" sorted.isEmpty (t.entries below sorted))
      ((.openObject, none) :: (separated (sorted.map (Terminal.entryMarks M)) ++
        [(.closeObject, none)])) := by
    refine Terminal.enclosed_lays ht Token.symbol_openObject Token.symbol_closeObject rfl rfl
      (fun hempty => ?_) fun hempty => Terminal.entries_lays ht ?_ fun p hp => ?_
    · rw [List.isEmpty_iff.1 hempty]
      rfl
    · exact List.isEmpty_eq_false_iff.1 hempty
    · obtain ⟨hk, hv⟩ := depth_table (hperm.mem_iff.1 hp)
      rw [hbelow _ (hk.trans hn), hbelow _ (hv.trans hn)]
      exact ⟨(hparts p hp).1.lays _ (by omega), (hparts p hp).2.lays _ (by omega)⟩
  have hentries : Answers s (do
      let _ ← (Relations.upTo m).keys id pairs
      sortBy (fun p q : Value × Value => (Relations.upTo m).less p.1 q.1) (← Relations.taken id pairs))
      sorted := by
    have htaken : Answers s (Relations.taken id pairs) (Relations.tableOf pairs (s.get id).entries) := rfl
    exact (Relations.answers_keys hend pairs).bind
      (htaken.bind (hdrained.sortedKeys hperm hpairs (hn.trans hm)))
  obtain ⟨ls, hrun, hlaid⟩ := henclosed
  exact ⟨ls, Lines.run_bind hentries hrun, hlaid⟩

end Containers

/-- A drained value without exceptions has a text and lines that are cut into the same tokens. -/
theorem Drained.displayed (ht : t.Unadorned) (h : Drained s home v) (hexception : ¬ v.HasException s) :
    ∃ u ms, Displayed s t v u ms := by
  induction h with
  | exception e => exact absurd (.here rfl) hexception
  | null =>
    obtain ⟨ms, hcut⟩ := Token.exists_cut_word (u := Text.ofString "null") (by decide) (by decide)
    refine ⟨_, ms, displayed_flat hcut (fun _ _ => rfl) fun _ _ => ?_⟩
    rw [Terminal.linesWith, ht.color, ht.bold]
    rfl
  | bool b =>
    obtain ⟨ms, hcut⟩ := Token.exists_cut_word (u := boolText b) (by cases b <;> decide)
      (by cases b <;> decide)
    refine ⟨_, ms, displayed_flat hcut (fun _ _ => rfl) fun _ _ => ?_⟩
    rw [Terminal.linesWith, ht.color, ht.bold]
    rfl
  | number hnan =>
    obtain ⟨ms, hcut⟩ := Token.exists_cut_number hnan
    refine ⟨_, ms, displayed_flat hcut (fun _ _ => rfl) fun _ _ => ?_⟩
    rw [Terminal.linesWith, ht.color]
    rfl
  | @string id pieces hend =>
    have hwhole := answers_wholeText hend pieces
    refine ⟨_, _, displayed_flat (Token.cut_literal _) (fun _ _ => hwhole.bind rfl) fun _ _ => ?_⟩
    rw [← Terminal.stringLine_eq ht]
    exact Lines.run_bind (hwhole.bind rfl) rfl
  | @array id items hend _ _ ih =>
    have hparts : ∀ v ∈ items.take (s.get id).taken, ∃ u ms, Displayed s t v u ms :=
      fun v hv => ih v hv fun hw => hexception (.inside hv hw)
    choose! g M hparts using hparts
    exact ⟨_, _, displayed_array ht hend hparts⟩
  | @object id pairs hend hhome hentries hkeys hvalues hapart ihk ihv =>
    have hparts : ∀ w, (∃ p ∈ Relations.tableOf pairs (s.get id).entries, p.1 = w ∨ p.2 = w) →
        ∃ u ms, Displayed s t w u ms := by
      rintro w ⟨p, hp, hw⟩
      have hheld : w ∈ (Value.object id pairs).holdings s :=
        List.mem_flatMap.2 ⟨p, hp, by rcases hw with rfl | rfl <;> simp⟩
      have hnone : ¬ w.HasException s := fun h => hexception (.inside hheld h)
      rcases hw with rfl | rfl
      · exact ihk p hp hnone
      · exact ihv p hp hnone
    choose! g M hparts using hparts
    exact displayed_object ht (.object hend hhome hentries hkeys hvalues hapart) fun p hp =>
      ⟨hparts _ ⟨p, hp, .inl rfl⟩, hparts _ ⟨p, hp, .inr rfl⟩⟩

/-- **The styled lines and the text of a value show the same data**: both are there for a drained value
without exceptions, and if the styles add nothing to the text, both are cut into tokens of the same kinds and
texts, with no white space left at the end. -/
theorem same_tokens (ht : t.Unadorned) (h : Drained s home v) (hexception : ¬ v.HasException s) :
    ∃ u ls ts ts', Answers s v.text u ∧ (t.lines v).run s = ({ lines := ls }, s) ∧
      Token.scan u = ⟨ts, none⟩ ∧ Token.scan (Text.join "\n" ls) = ⟨ts', none⟩ ∧
      ts'.map Token.mark = ts.map Token.mark := by
  obtain ⟨u, ms, hdisplayed⟩ := h.displayed ht hexception
  obtain ⟨ls, hrun, hne, hlaid⟩ := hdisplayed.lays v.depth (Nat.le_refl _)
  obtain ⟨ts, hscan, hts⟩ := hdisplayed.cut.scan_eq
  obtain ⟨ts', hscan', hts'⟩ := (hlaid.cut_join hne).scan_eq
  refine ⟨u, ls, ts, ts', hdisplayed.writes _ (Nat.le_refl _), ?_, hscan, hscan', hts'.trans hts.symm⟩
  rw [Terminal.lines, if_pos ht.styles]
  exact hrun

/-- An array of an object, whose key takes several lines, and of an empty array. -/
theorem same_tokens_nested :
    let t : Terminal := { styles := true, bold := id, color := fun _ => id }
    let key : Value := .array 1 [.null, .bool true]
    let record : Value := .object 2 [(key, .string 3 ["k"])]
    let list : Value := .array 4 [record, .array 5 []]
    let home : Nat → Value := fun i => if i = 1 then key else if i = 2 then record else
      if i = 3 then .string 3 ["k"] else if i = 4 then list else .array 5 []
    let s : Store := { progress := [(1, { taken := 2, ended := true }),
      (2, { taken := 1, ended := true, entries := [⟨Relations.nullHash, 0, 0⟩] }),
      (3, { taken := 1, ended := true }), (4, { taken := 2, ended := true }), (5, { ended := true })] }
    t.Unadorned ∧ Drained s home list ∧ ¬ list.HasException s ∧
      ∃ u ls ts ts', Answers s list.text u ∧ (t.lines list).run s = ({ lines := ls }, s) ∧
        Token.scan u = ⟨ts, none⟩ ∧ Token.scan (Text.join "\n" ls) = ⟨ts', none⟩ ∧
        ts'.map Token.mark = ts.map Token.mark := by
  intro t key record list home s
  have ht : t.Unadorned := ⟨rfl, fun _ => rfl, fun _ _ => rfl⟩
  have hkey : Drained s home key := by
    refine .array rfl rfl ?_
    rintro v (_ | ⟨_, _ | ⟨_, ⟨⟩⟩⟩)
    exacts [.null, .bool true]
  have hrecord : Drained s home record := by
    refine .object rfl rfl ?_ ?_ ?_ (List.pairwise_singleton _ _)
    · rintro e (_ | ⟨_, ⟨⟩⟩)
      exact ⟨key, .string 3 ["k"], rfl, rfl⟩
    · rintro p (_ | ⟨_, ⟨⟩⟩)
      exact hkey
    · rintro p (_ | ⟨_, ⟨⟩⟩)
      exact .string rfl rfl
  have hlist : Drained s home list := by
    refine .array rfl rfl ?_
    rintro v (_ | ⟨_, _ | ⟨_, ⟨⟩⟩⟩)
    exacts [hrecord, .array rfl rfl (List.forall_mem_nil _)]
  have hnone : ¬ list.HasException s := by
    have hflat : ∀ v ∈ [Value.null, .bool true, .string 3 ["k"], .array 5 []], ¬ v.HasException s := by
      rintro v (_ | ⟨_, _ | ⟨_, _ | ⟨_, _ | ⟨_, ⟨⟩⟩⟩⟩⟩) <;>
        exact not_occurs rfl (List.forall_mem_nil _)
    have hkey : ¬ key.HasException s := by
      refine not_occurs rfl ?_
      rintro v (_ | ⟨_, _ | ⟨_, ⟨⟩⟩⟩) <;> exact hflat _ (by simp)
    have hrecord : ¬ record.HasException s := by
      refine not_occurs rfl ?_
      rintro v (_ | ⟨_, _ | ⟨_, ⟨⟩⟩⟩)
      exacts [hkey, hflat _ (by simp)]
    refine not_occurs rfl ?_
    rintro v (_ | ⟨_, _ | ⟨_, ⟨⟩⟩⟩)
    exacts [hrecord, hflat _ (by simp)]
  exact ⟨ht, hlist, hnone, same_tokens ht hlist hnone⟩

end Value

end FilterShell
