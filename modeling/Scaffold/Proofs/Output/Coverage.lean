import Scaffold.Proofs.Output.Methods

/-!
# Coverage

The services and the combined schema keep queries and mutations apart, but the resolver makes its methods
from one table that knows actions by their names alone. Mutations come later than queries and take their
place there (`rank_le_of_mem_actionTable`). So an action that no other of its kind is named like has a
method exactly if it is a mutation or no mutation is named like it (`dispatched_iff`).
-/

namespace Scaffold.Output

open Text Naming Schema Service Project

section

variable {t : Tree} {paths : Paths} {files : List Found} {m : Model}
  (h : readModel t paths files = .ok m)

include h

/-- Among the actions of one name, the table has one of the last kind. -/
theorem rank_le_of_mem_actionTable {a b : Action} (ha : a ∈ m.actionTable.values)
    (hb : b ∈ m.actions) (hname : b.name = a.name) : b.kind.rank ≤ a.kind.rank := by
  have hlast : m.actions.reverse.find? (·.name = a.name) = some a :=
    Table.mem_values_ofList_map.1 ha
  obtain ⟨-, later, earlier, hcut, hlater⟩ := List.find?_eq_some_iff_append.1 hlast
  have hranks : (later ++ a :: earlier).Pairwise fun a b => b.kind.rank ≤ a.kind.rank :=
    hcut ▸ List.pairwise_reverse.2 (pairwise_rank_actions h)
  have hmem : b ∈ later ++ a :: earlier := hcut ▸ List.mem_reverse.2 hb
  -- what comes later than the listed action has another name, what comes earlier has no later kind
  rcases List.mem_append.1 hmem with hmem | hmem
  · simpa [hname] using hlater b hmem
  · rcases List.mem_cons.1 hmem with rfl | hmem
    · exact Nat.le_refl _
    · exact List.rel_of_pairwise_cons (List.pairwise_append.1 hranks).2.1 hmem

variable {a : Action} (ha : a ∈ m.actions)
  (honce : ∀ b ∈ m.actions, b.kind = a.kind → b.name = a.name → b = a)

include ha honce

/-- An action that no other of its kind is named like is in the table unless a mutation takes its place. -/
theorem mem_actionTable_iff : a ∈ m.actionTable.values ↔
    a.kind = .mutation ∨ ∀ b ∈ m.actions, b.kind = .mutation → b.name ≠ a.name := by
  have hkind {b : Action} (hb : b ∈ m.actions) : b.kind = .query ∨ b.kind = .mutation := by
    have hcalled := kind_ne_subscription h hb
    revert hcalled
    cases b.kind <;> simp
  constructor
  · intro hlisted
    refine (hkind ha).symm.imp_right fun hquery b hb hmutation hname => ?_
    have hrank := rank_le_of_mem_actionTable h hlisted hb hname
    rw [hquery, hmutation] at hrank
    exact absurd hrank (by decide)
  · intro hfree
    obtain ⟨b, hlisted, hname⟩ := Table.exists_mem_values_ofList_map Action.name ha
    have hb : b ∈ m.actions := Table.mem_of_mem_values_ofList_map hlisted
    have hsame : b.kind = a.kind := by
      rcases hkind hb with hquery | hmutation
      · have hrank := rank_le_of_mem_actionTable h hlisted ha hname.symm
        rw [hquery] at hrank ⊢
        exact (rank_injective (Nat.le_zero.1 hrank)).symm
      · rw [hmutation, hfree.resolve_right fun hnone => hnone b hb hmutation hname]
    rwa [← honce b hb hsame hname]

/-- An action that no other of its kind is named like is in the group of its module and kind. -/
theorem exists_group_of_mem_actions :
    ∃ g ∈ groups m.files, g.toGroupId = ⟨a.owner, a.kind⟩ ∧ a ∈ g.actions := by
  obtain ⟨file, hfile, -, howner, hkind⟩ := exists_file_of_mem_actions h ha
  have hid : (⟨a.owner, a.kind⟩ : GroupId) = idOf file := by rw [howner, hkind]; rfl
  refine ⟨_, groupOf_mem_groups hfile, hid.symm, ?_⟩
  rw [actions_groupOf (owned_readModel h)]
  obtain ⟨b, hlisted, hname⟩ :=
    Table.exists_mem_values_ofList_map Action.name (mem_actionsOf.2 ⟨ha, hid⟩)
  obtain ⟨hb, hidb⟩ := mem_actionsOf.1 (Table.mem_of_mem_values_ofList_map hlisted)
  rwa [← honce b hb (congrArg GroupId.kind (hidb.trans hid.symm)) hname]

end

/-- A query or mutation that no other of its kind is named like is in the service group of its module and
kind. The resolver makes a method for it exactly if it is a mutation or no mutation is named like it. Then
the resolver file has a method on the receiver of its kind, under its capitalized name, that calls its own
function; otherwise a method of that receiver and name is made for an action with another name. -/
theorem dispatched_iff {t : Tree} {paths : Paths} {files : List Found} {m : Model}
    (h : readModel t paths files = .ok m) (s : Setting) {a : Action} (ha : a ∈ m.actions)
    (honce : ∀ b ∈ m.actions, b.kind = a.kind → b.name = a.name → b = a) :
    (∃ g ∈ groups m.files, g.toGroupId = ⟨a.owner, a.kind⟩ ∧ a ∈ g.actions) ∧
    (a ∈ m.actionTable.values ↔
      a.kind = .mutation ∨ ∀ b ∈ m.actions, b.kind = .mutation → b.name ≠ a.name) ∧
    (a ∈ m.actionTable.values → ∃ x ∈ methods m,
      receiver? a.kind = some x.receiver ∧ x.name = capitalize a.name ∧
      x.parameters = parameterList a ∧ x.qualifier = a.owner.package ∧ x.function = functionName a ∧
      x.text <:+: resolverFile s m) ∧
    (a ∉ m.actionTable.values → ∀ x ∈ methods m,
      receiver? a.kind = some x.receiver → x.name = capitalize a.name →
      ∃ b ∈ m.actionTable.values, method? b = some x ∧ b.name ≠ a.name ∧
        capitalize b.name = capitalize a.name) := by
  refine ⟨exists_group_of_mem_actions h ha honce, mem_actionTable_iff h ha honce, ?_, ?_⟩
  · intro hlisted
    obtain ⟨x, hx⟩ := exists_method? (kind_ne_subscription h ha)
    have hmem : x ∈ methods m := List.mem_filterMap.2 ⟨a, hlisted, hx⟩
    obtain ⟨hreceiver, hname, hparameters, -, hqualifier, hfunction⟩ := method?_eq_some_iff.1 hx
    exact ⟨x, hmem, hreceiver, hname, hparameters, hqualifier, hfunction,
      text_infix_resolverFile s hmem⟩
  · -- an action of the table with the name of `a` and its receiver would be `a`
    intro hhidden x hx hreceiver hname
    obtain ⟨b, hlisted, hmethod⟩ := List.mem_filterMap.1 hx
    obtain ⟨hreceiver', hname', -⟩ := method?_eq_some_iff.1 hmethod
    refine ⟨b, hlisted, hmethod, fun hsame => hhidden ?_, by rw [← hname', hname]⟩
    have hb : b ∈ m.actions := Table.mem_of_mem_values_ofList_map hlisted
    rwa [← honce b hb (receiver?_inj hreceiver' hreceiver) hsame]

/-- A schema file of queries with the one field `ping`. -/
private def pingQuery : PlainFile where
  kind := .query
  owner := ⟨"shop".toList, "health".toList⟩
  dir := "modules/shop/health".toList
  place := "modules/shop/health/health_query.graphqls".toList
  interior := "\n  ping: PingResponse!\n".toList
  named := [("ping".toList, "PingResponse".toList)]

/-- A schema file of mutations in the same module. -/
private def pingMutation (interior name : Text) : PlainFile where
  kind := .mutation
  owner := ⟨"shop".toList, "health".toList⟩
  dir := "modules/shop/health".toList
  place := "modules/shop/health/health_mutation.graphqls".toList
  interior := interior
  named := [(name, "PingResponse".toList)]

private def pingTree (mutation query : Text) : Tree :=
  ⟨[("modules".toList, .directory [("shop".toList, .directory [("health".toList, .directory
    [("health_mutation.graphqls".toList, .file (.text mutation)),
      ("health_query.graphqls".toList, .file (.text query))])])])]⟩

/-- The tree with a query and a mutation is read as the two files. -/
private theorem readModel_ping {interior name : Text} (h : (pingMutation interior name).IsSound {}) :
    let f := pingMutation interior name
    readModel (pingTree f.content pingQuery.content) {} [f.found, pingQuery.found] =
      .ok (PlainFile.model [pingQuery, f]) := by
  intro f
  have htexts (mutation query : Text) :
      (pingTree mutation query).readText ⟨"modules/shop/health/health_query.graphqls".toList⟩ =
          .ok query ∧
        (pingTree mutation query).readText ⟨"modules/shop/health/health_mutation.graphqls".toList⟩ =
          .ok mutation :=
    ⟨by cbv, by cbv⟩
  have hquery : pingQuery.IsSound {} := by decide
  exact PlainFile.readModel_eq_ok rfl rfl
    (List.forall_mem_cons.2 ⟨hquery, List.forall_mem_singleton.2 h⟩)
    (List.forall_mem_cons.2 ⟨(htexts _ _).1, List.forall_mem_singleton.2 (htexts _ _).2⟩)

private def ping : Action :=
  ⟨"ping".toList, [], "PingResponse".toList, .query, ⟨"shop".toList, "health".toList⟩⟩

/-- A query and a mutation with other names: the query has its method. -/
theorem dispatched_iff_ping :
    let f := pingMutation "\n  save: PingResponse!\n".toList "save".toList
    let m := PlainFile.model [pingQuery, f]
    readModel (pingTree f.content pingQuery.content) {} [f.found, pingQuery.found] = .ok m ∧
      ping ∈ m.actions ∧
      (∃ g ∈ groups m.files, g.toGroupId = ⟨ping.owner, ping.kind⟩ ∧ ping ∈ g.actions) ∧
      ∃ x ∈ methods m, receiver? ping.kind = some x.receiver ∧ x.name = capitalize ping.name ∧
        x.qualifier = ping.owner.package ∧ x.function = functionName ping ∧
        x.text <:+: resolverFile default m := by
  intro f m
  have hread : readModel _ {} [f.found, pingQuery.found] = .ok m := readModel_ping (by decide)
  have hmem : ping ∈ m.actions := by decide
  have honce : ∀ b ∈ m.actions, b.kind = ping.kind → b.name = ping.name → b = ping := by decide
  obtain ⟨hgroup, hlisted, hmethod, -⟩ := dispatched_iff hread default hmem honce
  obtain ⟨x, hx, hreceiver, hname, -, hqualifier, hfunction, htext⟩ :=
    hmethod (hlisted.2 (.inr (by decide)))
  exact ⟨hread, hmem, hgroup, x, hx, hreceiver, hname, hqualifier, hfunction, htext⟩

/-- A mutation that is named like a query takes its place: the query has no method. -/
theorem query_not_dispatched :
    let f := pingMutation "\n  ping: PingResponse!\n".toList "ping".toList
    let m := PlainFile.model [pingQuery, f]
    readModel (pingTree f.content pingQuery.content) {} [f.found, pingQuery.found] = .ok m ∧
      ping ∈ m.actions ∧ (∀ b ∈ m.actions, b.kind = ping.kind → b.name = ping.name → b = ping) ∧
      ¬∃ x ∈ methods m, receiver? ping.kind = some x.receiver ∧ x.name = capitalize ping.name := by
  intro f m
  exact ⟨readModel_ping (by decide), by decide, by decide, by decide⟩

end Scaffold.Output
