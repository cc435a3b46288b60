import AdaptiveLL.Lexing.Scan
import AdaptiveLL.Proofs.Cache.Honest
import AdaptiveLL.Proofs.Lexing.Following

/-!
# Scanning on any cache

Where a match begins, and where a symbol leads from a place of the table, is told by strands. What
was read from the table or computed, and what is written into it on the way, makes no difference: the
cache goes on to tell the truth.

A row in the table of a mode stands for strands, each at its first place. The commands that the
threads of the row have collected make no difference to what it answers, nor do the numbers of their
stacks.
-/

namespace AdaptiveLL

open StackGraph (Grows Grown Sound)
open Vantage (Sorted)

/-! ## Reading a symbol -/

namespace Network

/-- From where strands are followed. How long that may take makes no difference. -/
def outlook (net : Network) (host : Host) (position : Nat) (atEof : Bool) : Vantage :=
  { net, host, position, atEof, fuel := 0 }

/-- **The strands with which a mode begins,** each at its first place. -/
def Begins (net : Network) (host : Host) (position : Nat) (entry : StateId)
    (fs : List Strand) : Prop :=
  ∃ found guarded, (net.outlook host position false).Opens (net.starts entry) found guarded ∧
    firsts found = fs

/-- **The strands after a symbol,** each at its first place. -/
def After (net : Network) (host : Host) (position : Nat) (v : Symbol)
    (fs fs' : List Strand) : Prop :=
  ∃ found guarded done,
    (net.outlook host position (v == Symbol.eof)).Reaches v fs found guarded done ∧
      firsts found = fs'

/-- The first strand that has completed its token. -/
def winner? (net : Network) (fs : List Strand) : Option Strand :=
  fs.find? fun t => net.isStop t.state

/-- The type of the token that a strand has completed. -/
def typeOf (net : Network) (t : Strand) : Int :=
  net.ruleTokenTypes[(net.state t.state).rule]?.getD Symbol.noToken

/-- The type of the token that strands have completed. -/
def answer? (net : Network) (fs : List Strand) : Option Int := (net.winner? fs).map net.typeOf

variable {net : Network} {host : Host} {position : Nat} {entry : StateId} {v : Symbol}
  {fs fs' fs'' : List Strand}

theorem Begins.unique (h : net.Begins host position entry fs)
    (h' : net.Begins host position entry fs') : fs = fs' := by
  obtain ⟨found, guarded, hopens, rfl⟩ := h
  obtain ⟨found', guarded', hopens', rfl⟩ := h'
  rw [(hopens.unique hopens').1]

theorem After.unique (h : net.After host position v fs fs')
    (h' : net.After host position v fs fs'') : fs' = fs'' := by
  obtain ⟨found, guarded, done, hreaches, rfl⟩ := h
  obtain ⟨found', guarded', done', hreaches', rfl⟩ := h'
  rw [(hreaches.unique hreaches').1]

end Network

/-! ## What rows tell -/

/-- **The row stands for strands:** its threads spell them, some of them several times, and it
answers what they answer. -/
structure Row.Tells (net : Network) (fs : List Strand) (r : Row) (g : StackGraph) : Prop where
  spelled : ∃ l, r.configs.Spells g l ∧ Sorted l ∧ firsts l = fs
  answer_eq : (if r.accepting then some r.tokenType else none) = net.answer? fs

namespace Row.Tells

variable {net : Network} {fs fs' : List Strand} {r r' : Row} {g g' : StackGraph}

theorem grown (hg : g.Sound) (h : g.Grown g') (hr : r.Tells net fs g) : r.Tells net fs g' := by
  obtain ⟨l, hl, hsorted, hfs⟩ := hr.spelled
  exact ⟨⟨l, hl.grown hg h, hsorted, hfs⟩, hr.answer_eq⟩

theorem unique (hr : r.Tells net fs g) (hr' : r.Tells net fs' g) : fs = fs' := by
  obtain ⟨l, hl, -, rfl⟩ := hr.spelled
  obtain ⟨l', hl', -, rfl⟩ := hr'.spelled
  rw [hl.unique hl']

/-- What a row tells is not in its cells. -/
theorem bare_iff : r.bare.Tells net fs g ↔ r.Tells net fs g :=
  ⟨fun h => ⟨h.spelled, h.answer_eq⟩, fun h => ⟨h.spelled, h.answer_eq⟩⟩

theorem of_bare (h : r.bare = r'.bare) (hr : r.Tells net fs g) : r'.Tells net fs g :=
  bare_iff.mp (h ▸ bare_iff.mpr hr)

/-- Rows of the same threads tell the same. -/
theorem eq_of_same (hr : r.Tells net fs g) (hr' : r'.Tells net fs' g)
    (h : r.configs.same r'.configs = true) : fs = fs' := by
  obtain ⟨l, hl, -, rfl⟩ := hr.spelled
  obtain ⟨l', hl', -, rfl⟩ := hr'.spelled
  rw [hl.eq_of_same hl' h]

end Row.Tells

/-- A search for a state finds the same among threads and among their strands. -/
private theorem find?_spells {g : StackGraph} {cs : List Config} {l : List Strand}
    (h : List.Forall₂ (Config.Spells g) cs l) (p : StateId → Bool) :
    (cs.find? fun c => p c.state).map Config.state = (l.find? fun t => p t.state).map Strand.state := by
  induction h with
  | nil => rfl
  | @cons c t cs l hc _ ih =>
    rw [List.find?_cons, List.find?_cons, hc.state_eq]
    cases p t.state with
    | true => exact congrArg some hc.state_eq
    | false => exact ih

/-- **The row of a set of threads** stands for the strands that these spell. -/
theorem Scan.rowOf_tells (c : Scan) {s : ConfigSet} {l : List Strand} {g : StackGraph}
    (hs : s.Spells g l) (hl : Sorted l) : (c.rowOf s).Tells c.net (firsts l) g := by
  have hfind : (s.toList.find? fun d => (c.net.state d.state).isRuleStop).map Config.state =
      (c.net.winner? (firsts l)).map Strand.state := by
    rw [Network.winner?, find?_firsts]
    exact find?_spells hs.members fun q => (c.net.state q).isRuleStop
  unfold rowOf
  cases hfirst : s.toList.find? fun d => (c.net.state d.state).isRuleStop with
  | some d =>
    rw [hfirst] at hfind
    obtain ⟨t, ht, hstate⟩ := Option.map_eq_some_iff.mp hfind.symm
    refine ⟨⟨l, hs, hl, rfl⟩, ?_⟩
    simp only [if_true, Network.answer?, ht, Option.map_some, Network.typeOf, hstate]
  | none =>
    rw [hfirst] at hfind
    have hnone : c.net.winner? (firsts l) = none := Option.map_eq_none_iff.mp hfind.symm
    refine ⟨⟨l, hs, hl, rfl⟩, ?_⟩
    simp [Network.answer?, hnone]

/-! ## Tables -/

/-- **What the rows of a mode stand for:** a character leads to the strands after it, or to nowhere
if there are none, whatever the host and wherever the character stands. -/
def Table.strandMeaning (net : Network) (entry : StateId) (g : StackGraph) : Meaning where
  row r := ∃ fs, r.Tells net fs g
  leads r v r' := ∃ fs, r.Tells net fs g ∧ ∃ fs',
    (∀ host position, net.After host position v fs fs') ∧
      r'.elim (fs' = []) fun x => fs' ≠ [] ∧ x.Tells net fs' g
  first r := ∃ fs, (∀ host position, net.Begins host position entry fs) ∧ r.Tells net fs g

/-- The graph of stacks may grow. -/
theorem Table.strandMeaning_grown {net : Network} {entry : StateId} {g g' : StackGraph}
    {t : Table} (hg : g.Sound) (h : g.Grown g')
    (ht : t.Honest (strandMeaning net entry g) entry) :
    t.Honest (strandMeaning net entry g') entry := by
  refine ht.mono (fun r ⟨fs, hr⟩ => ⟨fs, hr.grown hg h⟩) (fun r v r' _ _ hleads => ?_)
    fun r _ ⟨fs, hbegins, hr⟩ => ⟨fs, hbegins, hr.grown hg h⟩
  obtain ⟨fs, hr, fs', hafter, hr'⟩ := hleads
  refine ⟨fs, hr.grown hg h, fs', hafter, ?_⟩
  cases r' with
  | none => exact hr'
  | some x => exact ⟨hr'.1, hr'.2.grown hg h⟩

/-- **A cache that tells the truth about a lexer.** -/
abbrev Cache.Lexes (net : Network) (nodes : Nat) (c : Cache) : Prop :=
  c.Honest net net.modeStarts.toArray (fun _ entry g => Table.strandMeaning net entry g) nodes

namespace Cache

variable {net : Network} {nodes : Nat} {c c' : Cache} {mode : Nat} {p : Place} {fs : List Strand}

/-- The row at a place of the mode's table stands for the strands. -/
structure Shows (net : Network) (c : Cache) (mode : Nat) (p : Place) (fs : List Strand) : Prop where
  has : (c.table mode).Has p
  tells : ((c.table mode).row p).Tells net fs c.graph

theorem Shows.follows (hg : c.graph.Sound) (h : c.Follows c') (hp : c.Shows net mode p fs) :
    c'.Shows net mode p fs :=
  ⟨(h.tables mode).has hp.has,
    (hp.tells.grown hg h.grown).of_bare ((h.tables mode).bare_row hp.has).symm⟩

end Cache

/-! ## Matching -/

/-- The cursor stays where it is. -/
structure Scanner.Stays (s s' : Scanner) : Prop where
  stream_eq : s'.stream = s.stream
  line_eq : s'.line = s.line
  column_eq : s'.column = s.column

namespace Scanner.Stays

theorem refl (s : Scanner) : s.Stays s := ⟨rfl, rfl, rfl⟩

theorem trans {s s' s'' : Scanner} (h : s.Stays s') (h' : s'.Stays s'') : s.Stays s'' where
  stream_eq := h'.stream_eq.trans h.stream_eq
  line_eq := h'.line_eq.trans h.line_eq
  column_eq := h'.column_eq.trans h.column_eq

theorem position_eq {s s' : Scanner} (h : s.Stays s') : s'.position = s.position := by
  unfold Scanner.position
  rw [h.stream_eq, h.line_eq, h.column_eq]

end Scanner.Stays

namespace Scan

variable {α β : Type} {net : Network} {nodes : Nat} {m : Scanning α} {f : α → Scanning β}
  {s : Scanner} {Q Q' : α → Cache → Prop} {P : β → Cache → Prop}

/-- Reading the table of the mode. -/
theorem table_bind_yields {c : Scan} {f : Table → Scanning β} {Q : Except LexError β → Scanner → Prop}
    (h : (f (s.cache.table c.mode)).Yields s Q) : (c.table >>= f).Yields s Q := by
  unfold Scan.table
  rw [bind_assoc]
  refine .get_bind ?_
  rw [pure_bind]
  exact h

/-- **What a part of a match does** while the cursor stays, on a cache that tells the truth: it leaves
one behind that goes on from it, and does what is asked of it unless a ceiling was met. -/
def Acts (net : Network) (nodes : Nat) (m : Scanning α) (s : Scanner) (Q : α → Cache → Prop) :
    Prop :=
  m.Yields s fun r s' => s'.cache.Lexes net nodes ∧ s.cache.Follows s'.cache ∧ s.Stays s' ∧
    ((∃ e, r = .error (.exceeded e)) ∨ ∃ a, r = .ok a ∧ Q a s'.cache)

namespace Acts

theorem mono (h : Acts net nodes m s Q)
    (himp : ∀ a c, c.Lexes net nodes → s.cache.Follows c → Q a c → Q' a c) :
    Acts net nodes m s Q' := by
  refine Run.Yields.mono h ?_
  rintro r s' ⟨hc, hfollows, hstays, he | ⟨a, ha, hQ⟩⟩
  · exact ⟨hc, hfollows, hstays, .inl he⟩
  · exact ⟨hc, hfollows, hstays, .inr ⟨a, ha, himp a _ hc hfollows hQ⟩⟩

theorem pure {a : α} (hc : s.cache.Lexes net nodes) (h : Q a s.cache) :
    Acts net nodes (pure a) s Q :=
  .of_eq rfl ⟨hc, .refl hc.sound, .refl s, .inr ⟨a, rfl, h⟩⟩

theorem bind (h : Acts net nodes m s Q)
    (hf : ∀ a s', s'.cache.Lexes net nodes → s.cache.Follows s'.cache → s.Stays s' →
      Q a s'.cache → Acts net nodes (f a) s' P) : Acts net nodes (m >>= f) s P := by
  refine Run.Yields.bind h ?_ ?_
  · rintro a s' ⟨hc, hfollows, hstays, hQ⟩
    obtain ⟨_, ha, hQ⟩ := hQ.resolve_left nofun
    obtain rfl := Except.ok.inj ha
    refine Run.Yields.mono (hf a s' hc hfollows hstays hQ) ?_
    rintro r s'' ⟨hc', hfollows', hstays', hP⟩
    exact ⟨hc', hfollows.trans hfollows', hstays.trans hstays', hP⟩
  · rintro e s' ⟨hc, hfollows, hstays, ⟨e', he⟩ | ⟨_, ha, _⟩⟩
    · exact ⟨hc, hfollows, hstays, .inl ⟨e', by rw [Except.error.inj he]⟩⟩
    · cases ha

theorem get_bind {f : Scanner → Scanning β} (h : Acts net nodes (f s) s P) :
    Acts net nodes (get >>= f) s P :=
  Run.Yields.get_bind h

theorem table_bind {c : Scan} {f : Table → Scanning β}
    (h : Acts net nodes (f (s.cache.table c.mode)) s P) : Acts net nodes (c.table >>= f) s P :=
  table_bind_yields h

/-- A first part that changes the scanner, but not its cursor. -/
theorem modify_bind {g : Scanner → Scanner} {f : PUnit → Scanning β}
    (hfollows : s.cache.Follows (g s).cache) (hstays : s.Stays (g s))
    (h : Acts net nodes (f ⟨⟩) (g s) P) :
    Acts net nodes ((modify g : Scanning PUnit) >>= f) s P := by
  refine Run.Yields.modify_bind (Run.Yields.mono h ?_)
  rintro r s' ⟨hc, hfollows', hstays', hP⟩
  exact ⟨hc, hfollows.trans hfollows', hstays.trans hstays', hP⟩

/-- Following threads. -/
theorem probe (hc : s.cache.Lexes net nodes) {p : Probe α} {Q : α → StackGraph → Prop}
    (h : Probe.Ends false p { graph := s.cache.graph, past := s.callbacks } Q) :
    Acts net nodes (Scan.probe p) s fun a c => c.tables = s.cache.tables ∧ Q a c.graph := by
  obtain ⟨r, tr, hrun, hext, hQ, -⟩ := h
  obtain ⟨hc', hfollows⟩ := Cache.Honest.setGraph hc hext.grown fun _ _ _ ht =>
    Table.strandMeaning_grown hc.sound hext.grown ht
  have hprobe : (Scan.probe p).from? s = some (r.mapError .exceeded, s.absorb tr) := by
    change (p.from? { graph := s.cache.graph, past := s.callbacks }).bind _ = _
    rw [hrun]
    rfl
  refine .of_eq hprobe ⟨hc', hfollows, ⟨rfl, rfl, rfl⟩, ?_⟩
  cases r with
  | error e => exact .inl ⟨e, rfl⟩
  | ok a => exact .inr ⟨a, rfl, rfl, hQ a rfl⟩

end Acts

/-! ## Tables of modes -/

/-- The scan can be made on caches with so many nodes: the network fits together, the mode begins at
the state, the fuel suffices, and the answers of the host never change. -/
structure Fits (c : Scan) (net : Network) (nodes : Nat) (entry : StateId) : Prop where
  net_eq : c.net = net
  consistent : net.Consistent
  word : net.states.size ≤ emptyReturn
  fuel : chaseBound net nodes ≤ c.fuel
  entry_eq : net.modeStarts.toArray[c.mode]? = some entry
  steady : c.host.Steady

variable {c : Scan} {entry : StateId}

/-- The table of the mode. -/
private theorem Fits.honest (hF : c.Fits net nodes entry) {d : Cache} (hd : d.Lexes net nodes) :
    (d.table c.mode).Honest (Table.strandMeaning net entry d.graph) entry :=
  hd.tables c.mode entry hF.entry_eq

/-- A first part that replaces the table of the mode by one that goes on from it. -/
private theorem Fits.setTable_bind (hF : c.Fits net nodes entry) (hc : s.cache.Lexes net nodes)
    {t : Table} (ht : t.Honest (Table.strandMeaning net entry s.cache.graph) entry)
    (hevolves : (s.cache.table c.mode).Evolves t) {f : Unit → Scanning β}
    (h : ∀ s', s'.cache.Lexes net nodes → s.cache.Follows s'.cache → s.Stays s' →
      s'.cache.graph = s.cache.graph → s'.cache.table c.mode = t →
        Acts net nodes (f ⟨⟩) s' P) : Acts net nodes (c.setTable t >>= f) s P := by
  obtain ⟨hc', hfollows⟩ := Cache.Honest.setTable hc hF.entry_eq ht hevolves
  have htable : (s.cache.setTable c.mode t).table c.mode = t := by
    refine (Cache.table_setTable ?_).trans (if_pos rfl)
    rw [hc.size_eq]
    exact (Array.getElem?_eq_some_iff.mp hF.entry_eq).1
  have hstays : s.Stays { s with cache := s.cache.setTable c.mode t } := ⟨rfl, rfl, rfl⟩
  exact .modify_bind hfollows hstays (h _ hc' hfollows hstays rfl htable)

/-- Putting the row of a set into the table. -/
private theorem install_acts (hF : c.Fits net nodes entry) (hc : s.cache.Lexes net nodes)
    {configs : ConfigSet} {l : List Strand} (hs : configs.Spells s.cache.graph l)
    (hl : Vantage.Sorted l) :
    Acts net nodes (c.install configs) s fun p d => d.Shows net c.mode p (firsts l) := by
  have hrow : (c.rowOf configs).Tells net (firsts l) s.cache.graph := hF.net_eq ▸ c.rowOf_tells hs hl
  have hcells : (c.rowOf configs).cells = [] := by
    unfold rowOf
    split <;> rfl
  unfold install
  dsimp only
  split
  · exact .pure hc ⟨hcells, hrow⟩
  · refine .table_bind ?_
    obtain ⟨hhonest, hevolves, hhas, hmeans, hsame⟩ :=
      (hF.honest hc).install (r := c.rowOf configs) ⟨_, Row.Tells.bare_iff.mpr hrow⟩ hcells
    generalize (s.cache.table c.mode).install (c.rowOf configs) = res
      at hhonest hevolves hhas hmeans hsame
    obtain ⟨place, event, t⟩ := res
    refine hF.setTable_bind hc hhonest hevolves fun s' hc' hfollows hstays hgraph htable => ?_
    have htells : (t.row place).Tells net (firsts l) s'.cache.graph := by
      rw [hgraph]
      obtain ⟨fs, hfs⟩ := hmeans
      have hfs := Row.Tells.bare_iff.mp hfs
      -- The row that is found instead may be an older one; it tells of the same strands then.
      rcases hsame with heq | hsame
      · exact (show t.row place = c.rowOf configs from heq) ▸ hrow
      · exact hfs.eq_of_same hrow hsame ▸ hfs
    have hshows : s'.cache.Shows net c.mode place (firsts l) := by
      refine ⟨?_, ?_⟩
      · rw [htable]
        exact hhas
      · rw [htable]
        exact htells
    cases event with
    | none => exact .pure hc' hshows
    | some e => exact .modify_bind (.refl hc'.sound) ⟨rfl, rfl, rfl⟩ (.pure hc' hshows)

/-! ## Following strands -/

private theorem startSet_acts (hF : c.Fits net nodes entry) (hc : s.cache.Lexes net nodes) :
    Acts net nodes (probe ((c.vantage s.stream.index false).startSet entry)) s fun configs d =>
      d.tables = s.cache.tables ∧ ∃ l, configs.Spells d.graph l ∧ Vantage.Sorted l ∧
        net.Begins c.host.now s.stream.index entry (firsts l) ∧
        (configs.hasGuards = false →
          ∀ host position, net.Begins host position entry (firsts l)) := by
  obtain rfl := hF.net_eq
  refine (Acts.probe hc (Vantage.startSet_ends (v := c.vantage s.stream.index false) hF.consistent
    hF.word hF.steady hF.fuel hc.sound hc.nodes_eq entry)).mono ?_
  rintro configs d _ _ ⟨htables, found, guarded, l, hopens, hl, hcondenses, hguards⟩
  have hsorted := (hopens.sorted (c.net.sorted_starts entry)).1.sublist hcondenses.sublist
  refine ⟨htables, l, hl, hsorted, ⟨found, guarded, ?_, hcondenses.firsts_eq.symm⟩, ?_⟩
  · exact hopens.elsewhere ⟨rfl, rfl, fun _ => ⟨rfl, rfl⟩⟩
  · intro hnone host position
    obtain rfl : guarded = false := hguards.symm.trans hnone
    exact ⟨found, false, hopens.elsewhere ⟨rfl, rfl, nofun⟩, hcondenses.firsts_eq.symm⟩

private theorem reachFrom_acts (hF : c.Fits net nodes entry) (hc : s.cache.Lexes net nodes)
    {configs : ConfigSet} {l : List Strand} (hs : configs.Spells s.cache.graph l)
    (hl : Vantage.Sorted l) (v : Symbol) (length : Nat) :
    Acts net nodes (probe ((c.vantage (s.stream.index + 1) (v == Symbol.eof)).reachFrom v length
      noAlternative ConfigSet.forLexer configs.toList)) s fun next d =>
      d.tables = s.cache.tables ∧ ∃ l', next.Spells d.graph l' ∧ Vantage.Sorted l' ∧
        net.After c.host.now (s.stream.index + 1) v (firsts l) (firsts l') ∧
        (next.hasGuards = false →
          ∀ host position, net.After host position v (firsts l) (firsts l')) := by
  obtain rfl := hF.net_eq
  refine (Acts.probe hc (Vantage.reachFrom_ends
    (v := c.vantage (s.stream.index + 1) (v == Symbol.eof)) hF.consistent hF.word hF.steady hF.fuel
    hc.sound hc.nodes_eq hs length)).mono ?_
  rintro next d _ _ ⟨htables, found, guarded, done, l', hreaches, hl', hcondenses, hguards⟩
  have hsorted := (hreaches.sorted hl).1.sublist hcondenses.sublist
  -- The same strands are reached from the first places.
  obtain ⟨found', hreaches', hfound⟩ := hreaches.firsts hl
  have hsame : firsts found' = firsts l' := hfound.trans hcondenses.firsts_eq.symm
  refine ⟨htables, l', hl', hsorted, ⟨found', guarded, done, ?_, hsame⟩, ?_⟩
  · exact hreaches'.elsewhere ⟨rfl, rfl, fun _ => ⟨rfl, rfl⟩⟩
  · intro hnone host position
    obtain rfl : guarded = false := hguards.symm.trans hnone
    exact ⟨found', false, done, hreaches'.elsewhere ⟨rfl, rfl, nofun⟩, hsame⟩

/-! ## Places -/

/-- **The place where a match begins.** -/
theorem startPlace_acts (hF : c.Fits net nodes entry) (hc : s.cache.Lexes net nodes) :
    Acts net nodes c.startPlace s fun p d => ∃ fs,
      net.Begins c.host.now s.stream.index entry fs ∧ d.Shows net c.mode p fs := by
  unfold startPlace
  refine .table_bind ?_
  cases hstart : (if c.settings.useCache then (s.cache.table c.mode).startRow else none) with
  | some n =>
    have hstart' : (s.cache.table c.mode).startRow = some n := by
      split at hstart
      · exact hstart
      · cases hstart
    obtain ⟨hlt, fs, hbegins, htells⟩ := (hF.honest hc).startRow n hstart'
    exact .pure hc ⟨fs, hbegins c.host.now s.stream.index, hlt, Row.Tells.bare_iff.mp htells⟩
  | none =>
    refine .get_bind ?_
    dsimp only
    rw [show (s.cache.table c.mode).start = entry from (hF.honest hc).start_eq]
    refine (startSet_acts hF hc).bind ?_
    rintro configs s₁ hc₁ - hstays₁ ⟨-, l, hl, hsorted, hbegins, hanywhere⟩
    have hl' : ({ configs with hasGuards := false } : ConfigSet).Spells s₁.cache.graph l :=
      ⟨hl.ordered, hl.members⟩
    refine (install_acts hF hc₁ hl' hsorted).bind fun place s₂ hc₂ _ _ hshows => ?_
    split
    · exact .pure hc₂ ⟨_, hbegins, hshows⟩
    · next hguards =>
      have hnone : configs.hasGuards = false := by
        cases hg : configs.hasGuards with
        | false => rfl
        | true => simp [hg] at hguards
      -- The start is kept only if no guard was asked, so it holds wherever a match begins.
      have hfirst : (Table.strandMeaning net entry s₂.cache.graph).first
          ((s₂.cache.table c.mode).row place).bare :=
        ⟨_, hanywhere hnone, Row.Tells.bare_iff.mpr hshows.tells⟩
      obtain ⟨hhonest, hevolves, hhas, -, hfirst'⟩ := (hF.honest hc₂).setStart hshows.has
        ⟨_, Row.Tells.bare_iff.mpr hshows.tells⟩ hfirst
      refine .table_bind ?_
      generalize (s₂.cache.table c.mode).setStart place = res at hhonest hevolves hhas hfirst'
      obtain ⟨first, t⟩ := res
      refine hF.setTable_bind hc₂ hhonest hevolves fun s₃ hc₃ _ _ hgraph htable => .pure hc₃ ?_
      obtain ⟨fs, hfs, htells⟩ := hfirst'
      refine ⟨fs, hfs c.host.now s.stream.index, ?_, ?_⟩
      · rw [htable]
        exact hhas
      · rw [htable, hgraph]
        exact Row.Tells.bare_iff.mp htells

/-- Where a symbol leads: to a place of the strands after it, or nowhere if there are none. -/
def Leads (c : Scan) (net : Network) (position : Nat) (v : Symbol) (fs : List Strand)
    (next : Option Place) (d : Cache) : Prop :=
  ∃ fs', net.After c.host.now position v fs fs' ∧
    next.elim (fs' = []) fun p => fs' ≠ [] ∧ d.Shows net c.mode p fs'

/-- **The place that is computed for a symbol.** -/
private theorem target_acts (hF : c.Fits net nodes entry) (hc : s.cache.Lexes net nodes) {p : Place}
    {fs : List Strand} (hp : s.cache.Shows net c.mode p fs) (v : Symbol) :
    Acts net nodes (c.target p v) s (c.Leads net (s.stream.index + 1) v fs) := by
  obtain ⟨l, hl, hsorted, rfl⟩ := hp.tells.spelled
  unfold target
  refine .get_bind (.table_bind ?_)
  dsimp only
  refine (reachFrom_acts hF hc hl hsorted v _).bind ?_
  rintro configs s₁ hc₁ hfollows₁ - ⟨-, l', hl', hsorted', hafter, hanywhere⟩
  have hp₁ := hp.follows hc.sound hfollows₁
  rw [hl'.isEmpty_eq]
  -- What is written into the table was found without asking a guard, so it holds in every match.
  cases hempty : l'.isEmpty with
  | true =>
    obtain rfl := List.isEmpty_iff.mp hempty
    rw [if_pos rfl]
    have hdone : ∀ s₂ : Scanner, s₂.cache.Lexes net nodes →
        Acts net nodes (pure none) s₂ (c.Leads net (s.stream.index + 1) v (firsts l)) :=
      fun s₂ hc₂ => .pure hc₂ ⟨[], hafter, rfl⟩
    split
    · next hwrite =>
      have hnone : configs.hasGuards = false := by
        cases hg : configs.hasGuards with
        | false => rfl
        | true => simp [hg] at hwrite
      obtain ⟨hhonest, hevolves⟩ := Table.Honest.write (p := p) (v := v) (c := .dead)
        (hF.honest hc₁) ⟨_, Row.Tells.bare_iff.mpr hp₁.tells, [], hanywhere hnone, rfl⟩
      refine .table_bind (hF.setTable_bind hc₁ hhonest hevolves fun s₂ hc₂ _ _ _ _ => hdone s₂ hc₂)
    · exact hdone s₁ hc₁
  | false =>
    have hne : firsts l' ≠ [] := by
      intro hnil
      have hmem : ∀ t, t ∉ l' := fun t ht => by
        have := mem_firsts.mpr ht
        rw [hnil] at this
        cases this
      rw [List.eq_nil_iff_forall_not_mem.mpr hmem] at hempty
      cases hempty
    rw [if_neg Bool.false_ne_true]
    have hl'' : ({ configs with hasGuards := false } : ConfigSet).Spells s₁.cache.graph l' :=
      ⟨hl'.ordered, hl'.members⟩
    refine (install_acts hF hc₁ hl'' hsorted').bind fun place s₂ hc₂ hfollows₂ _ hshows => ?_
    have hdone : ∀ s₃ : Scanner, s₃.cache.Lexes net nodes →
        s₃.cache.Shows net c.mode place (firsts l') →
        Acts net nodes (pure (some place)) s₃ (c.Leads net (s.stream.index + 1) v (firsts l)) :=
      fun s₃ hc₃ hshows => .pure hc₃ ⟨_, hafter, hne, hshows⟩
    split
    · next hwrite =>
      have hnone : configs.hasGuards = false := by
        cases hg : configs.hasGuards with
        | false => rfl
        | true => simp [hg] at hwrite
      have hp₂ := hp₁.follows hc₁.sound hfollows₂
      obtain ⟨hhonest, hevolves⟩ := Table.Honest.link (p := p) (v := v) (hF.honest hc₂) hshows.has
        ⟨_, Row.Tells.bare_iff.mpr hp₂.tells, _, hanywhere hnone, hne,
          Row.Tells.bare_iff.mpr hshows.tells⟩
      refine .table_bind (hF.setTable_bind hc₂ hhonest hevolves fun s₃ hc₃ hfollows₃ _ _ _ => ?_)
      exact hdone s₃ hc₃ (hshows.follows hc₂.sound hfollows₃)
    · exact hdone s₂ hc₂ hshows

/-- **The place that a symbol leads to,** read from the table or computed. -/
theorem next_acts (hF : c.Fits net nodes entry) (hc : s.cache.Lexes net nodes) {p : Place}
    {fs : List Strand} (hp : s.cache.Shows net c.mode p fs) (v : Symbol) :
    Acts net nodes (c.next p v) s (c.Leads net (s.stream.index + 1) v fs) := by
  unfold next
  refine .table_bind ?_
  cases hcell : (if c.settings.useCache then (s.cache.table c.mode).cell? p v else none) with
  | none => exact target_acts hF hc hp v
  | some cell =>
    have hcell' : (s.cache.table c.mode).cell? p v = some cell := by
      split at hcell
      · exact hcell
      · cases hcell
    have hleads := (hF.honest hc).of_cell hp.has hcell'
    cases cell with
    | row n =>
      obtain ⟨hn, fs₁, htells, fs', hafter, hne, htells'⟩ := hleads
      obtain rfl := (Row.Tells.bare_iff.mp htells).unique hp.tells
      exact .pure hc ⟨fs', hafter _ _, hne, hn, Row.Tells.bare_iff.mp htells'⟩
    | dead =>
      obtain ⟨fs₁, htells, fs', hafter, hnil⟩ := hleads
      obtain rfl := (Row.Tells.bare_iff.mp htells).unique hp.tells
      exact .pure hc ⟨fs', hafter _ _, hnil⟩

end Scan

end AdaptiveLL
