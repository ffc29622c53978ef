import Distrans.Workload.ChaosRule

/-!
# Turns of the harness that return

An invariant of the harness says what holds after each step, if the step returns.  `Rule.Returns`
says that the steps return from the states in which it holds; then so do the loops.

* `Rule.Returns.turn` — **a turn returns**;
* `Rule.Returns.loop` — **the main loop ends**, within as many turns as there are ticks.
-/

set_option autoImplicit false

namespace Distrans.Workload

open Machine Harness

variable {b : Build} {config : ChaosConfig} {plan : List (U64 × Nat × Op)}
  {orders : Nat → Nat → Shuffle} {h : Harness} {i : Nat} {link : ClientLink} {server : Server}
  {G : Type} {I : G → Nat → Harness → Prop} {toServer toClient : G → Nat → Datagram → Prop} {g : G}

/-- **The steps return** from the states in which the invariant holds. -/
structure Rule.Returns (b : Build) (config : ChaosConfig) (plan : List (U64 × Nat × Op))
    (orders : Nat → Nat → Shuffle) (I : G → Nat → Harness → Prop)
    (toServer toClient : G → Nat → Datagram → Prop) : Prop where
  clients : ∀ c ∈ plan, c.2.1 < config.clients
  relink : ∀ {g h i t profile}, I g 0 h → i < config.clients → (t, profile) ∈ config.profileSwitches →
    ∃ h', h.relink b config profile i = .ok h'
  call : ∀ {g h i link server t op}, I g 0 h → h.At i link server →
    plan[h.fired]? = some (t, i, op) → t ≤ h.tick → ∃ client id out c2s,
      Workload.call b (Connection.transport b) link.client h.tick op = .ok (client, id, out) ∧
      sendAll b link.c2s out = .ok c2s
  arriveServer : ∀ {g h i link server}, I g i h → h.At i link server →
    ∃ r, link.c2s.advance h.tick = .ok r
  serve : ∀ {g h i link server d}, I g i h → h.At i link server → toServer g i d →
    ∃ server' shared' out s2c,
      server.onDatagram (Connection.transport b) h.shared h.tick d = .ok (server', shared', out) ∧
      sendAll b link.s2c out = .ok s2c
  arriveClient : ∀ {g h i link server}, I g i h → h.At i link server →
    ∃ r, link.s2c.advance h.tick = .ok r
  hear : ∀ {g h i link server d}, I g i h → h.At i link server → toClient g i d → ∃ client out c2s,
    link.client.onDatagram (Connection.transport b) h.tick d = .ok (client, out) ∧
    sendAll b link.c2s out = .ok c2s
  clientTick : ∀ {g h i link server}, I g i h → h.At i link server → ∃ client out c2s,
    link.client.onTick b (Connection.transport b) h.tick
      ((orders h.tick.toNat i).order link.client.pending.entries) = .ok (client, out) ∧
    sendAll b link.c2s out = .ok c2s
  serverTick : ∀ {g h i link server}, I g (i + 1) h → h.At i link server → ∃ server' out s2c,
    server.onTick (Connection.transport b) h.tick = .ok (server', out) ∧
    sendAll b link.s2c out = .ok s2c

namespace Rule.Returns

/-- A `for` loop over the first indices whose steps return. -/
theorem range_returns {J : Nat → Harness → Prop} {f : Harness → Nat → Exec Harness} :
    ∀ {n k : Nat} {h : Harness},
    (∀ h i, k ≤ i → i < k + n → J i h → ∃ h', f h i = .ok h' ∧ J (i + 1) h') → J k h →
    ∃ h', (List.range' k n).foldlM f h = .ok h' ∧ J (k + n) h'
  | 0, _, h, _, hJ => ⟨h, rfl, hJ⟩
  | n + 1, k, h, hf, hJ => by
    obtain ⟨h₁, h₁', hJ₁⟩ := hf h k (le_refl k) (by omega) hJ
    obtain ⟨h₂, h₂', hJ₂⟩ := range_returns (n := n) (k := k + 1) (J := J)
      (fun h i hle hlt => hf h i (by omega) (by omega)) hJ₁
    refine ⟨h₂, ?_, ?_⟩
    · rw [List.range'_succ, List.foldlM_cons, h₁']
      exact h₂'
    · rwa [Nat.add_assoc, Nat.add_comm 1 n] at hJ₂

theorem index_at {α : Type} {l : List α} {x : α} (h : l[i]? = some x) : index l i = .ok x := by
  rw [index, h]

theorem switchProfiles (N : Rule.Returns b config plan orders I toServer toClient)
    (R : Rule b config plan orders I toServer toClient) : ∀ {due : List (U64 × FaultProfile)} {g : G}
    {h : Harness}, I g 0 h → (∀ s ∈ due, s ∈ config.profileSwitches) →
    ∃ h', h.switchProfiles b config due = .ok h'
  | [], _, h, _, _ => ⟨h, rfl⟩
  | (t, profile) :: due, g, h, hI, hdue => by
    rw [Harness.switchProfiles]
    split
    · rw [(R.sized hI).1, List.range_eq_range']
      obtain ⟨h₁, hfold, g₁, hI₁⟩ := range_returns (J := fun _ h => ∃ g, I g 0 h)
        (n := config.clients) (k := 0) (fun h i _ hlt hJ => by
          obtain ⟨g, hI⟩ := hJ
          have hmem := hdue _ List.mem_cons_self
          obtain ⟨h', hr⟩ := N.relink (i := i) hI (by omega) hmem
          exact ⟨h', hr, (R.relinkAt hI hmem hr).1⟩) ⟨g, hI⟩
      obtain ⟨h₂, h₂'⟩ := switchProfiles N R (R.switched hI₁)
        fun s hs => hdue s (List.mem_cons_of_mem _ hs)
      exact ⟨h₂, bind_eq_ok.mpr ⟨h₁, hfold, h₂'⟩⟩
    · exact ⟨h, rfl⟩

theorem fireCalls (N : Rule.Returns b config plan orders I toServer toClient)
    (R : Rule b config plan orders I toServer toClient) : ∀ {due : List (U64 × Nat × Op)} {g : G}
    {h : Harness}, I g 0 h → due = plan.drop h.fired → ∃ h', h.fireCalls b due = .ok h'
  | [], _, h, _, _ => ⟨h, rfl⟩
  | (t, i, op) :: due, g, h, hI, hdue => by
    rw [Harness.fireCalls]
    split
    · rename_i ht
      have hplan : plan[h.fired]? = some (t, i, op) := by
        rw [← List.head?_drop, ← hdue]
        rfl
      have hlen := R.sized hI
      have hlt := N.clients _ (List.mem_of_getElem? hplan)
      obtain ⟨link, server, hat⟩ := at_of_lt (h := h) (i := i) (hlen.1 ▸ hlt) (hlen.2 ▸ hlt)
      obtain ⟨client, id, out, c2s, hcall, hsend⟩ := N.call hI hat hplan ht
      obtain ⟨g₁, hI₁⟩ := R.callAt hI hat hplan ht hcall hsend
      have hdrop : due = plan.drop (h.fired + 1) := by
        rw [← List.drop_drop, ← hdue]
        rfl
      obtain ⟨h', hr⟩ := fireCalls N R hI₁ hdrop
      exact ⟨h', bind_eq_ok.mpr ⟨link, index_at hat.link, bind_eq_ok.mpr ⟨_, hcall,
        bind_eq_ok.mpr ⟨c2s, hsend, hr⟩⟩⟩⟩
    · exact ⟨h, rfl⟩

theorem serveAll (N : Rule.Returns b config plan orders I toServer toClient)
    (R : Rule b config plan orders I toServer toClient) : ∀ {ds : List Datagram} {g : G}
    {h : Harness} {link : ClientLink} {server : Server}, I g i h → h.At i link server →
    (∀ d ∈ ds, toServer g i d) →
    ∃ r, Harness.serve b h.tick ds server h.shared link.s2c = .ok r
  | [], _, _, _, _, _, _, _ => ⟨_, rfl⟩
  | d :: ds, g, h, link, server, hI, hat, hds => by
    have hd := hds d List.mem_cons_self
    obtain ⟨server₁, shared₁, out, s2c, hone, hsend⟩ := N.serve hI hat hd
    obtain ⟨g₁, hI₁, hkept⟩ := R.serve hI hat hd hone hsend
    obtain ⟨r, hr⟩ := serveAll N R hI₁ (hat.put _ _ _)
      fun d hd => hkept d (hds d (List.mem_cons_of_mem _ hd))
    exact ⟨r, bind_eq_ok.mpr ⟨_, hone, bind_eq_ok.mpr ⟨s2c, hsend, hr⟩⟩⟩

theorem hearAll (N : Rule.Returns b config plan orders I toServer toClient)
    (R : Rule b config plan orders I toServer toClient) : ∀ {ds : List Datagram} {g : G}
    {h : Harness} {link : ClientLink} {server : Server}, I g i h → h.At i link server →
    (∀ d ∈ ds, toClient g i d) → ∃ r, Harness.hear b h.tick ds link.client link.c2s = .ok r
  | [], _, _, _, _, _, _, _ => ⟨_, rfl⟩
  | d :: ds, g, h, link, server, hI, hat, hds => by
    have hd := hds d List.mem_cons_self
    obtain ⟨client, out, c2s, hone, hsend⟩ := N.hear hI hat hd
    obtain ⟨g₁, hI₁, hkept⟩ := R.hear hI hat hd hone hsend
    obtain ⟨r, hr⟩ := hearAll N R hI₁ (hat.put _ _ _)
      fun d hd => hkept d (hds d (List.mem_cons_of_mem _ hd))
    exact ⟨r, bind_eq_ok.mpr ⟨_, hone, bind_eq_ok.mpr ⟨c2s, hsend, hr⟩⟩⟩

/-- **One tick of a client and its server.** -/
theorem pumpAt (N : Rule.Returns b config plan orders I toServer toClient)
    (R : Rule b config plan orders I toServer toClient) (hI : I g i h) (hlt : i < config.clients) :
    ∃ h', h.pumpAt b orders i = .ok h' := by
  have hlen := R.sized hI
  obtain ⟨link, server, hat⟩ := at_of_lt (h := h) (i := i) (hlen.1 ▸ hlt) (hlen.2 ▸ hlt)
  obtain ⟨⟨c2s, ds⟩, hadv⟩ := N.arriveServer hI hat
  obtain ⟨hI₁, hds⟩ := R.arriveServer hI hat hadv
  have hat₁ := hat.put { link with c2s } server h.shared
  obtain ⟨⟨server₁, shared₁, s2c⟩, hserve⟩ := N.serveAll R hI₁ hat₁ hds
  obtain ⟨g₂, hI₂⟩ := R.serveAll hI₁ hat₁ hds hserve
  have hat₂ := hat₁.put { link with c2s, s2c } server₁ shared₁
  obtain ⟨⟨s2c', ds'⟩, hadv'⟩ := N.arriveClient hI₂ hat₂
  obtain ⟨hI₃, hds'⟩ := R.arriveClient hI₂ hat₂ hadv'
  have hat₃ := hat₂.put { link with c2s, s2c := s2c' } server₁ shared₁
  obtain ⟨⟨client, c2s'⟩, hhear⟩ := N.hearAll R hI₃ hat₃ hds'
  obtain ⟨g₄, hI₄⟩ := R.hearAll hI₃ hat₃ hds' hhear
  have hat₄ := hat₃.put ⟨client, c2s', s2c'⟩ server₁ shared₁
  obtain ⟨client', out, c2s'', htick, hsend⟩ := N.clientTick hI₄ hat₄
  obtain ⟨g₅, hI₅⟩ := R.clientTick hI₄ hat₄ htick hsend
  have hat₅ := hat₄.put ⟨client', c2s'', s2c'⟩ server₁ shared₁
  obtain ⟨server₂, out', s2c'', htick', hsend'⟩ := N.serverTick hI₅ hat₅
  exact ⟨_, bind_eq_ok.mpr ⟨link, index_at hat.link, bind_eq_ok.mpr ⟨server, index_at hat.server,
    bind_eq_ok.mpr ⟨_, bind_eq_ok.mpr ⟨_, hadv, bind_eq_ok.mpr ⟨_, hserve, bind_eq_ok.mpr ⟨_, hadv',
      bind_eq_ok.mpr ⟨_, hhear, bind_eq_ok.mpr ⟨_, htick, bind_eq_ok.mpr ⟨_, hsend,
        bind_eq_ok.mpr ⟨_, htick', bind_eq_ok.mpr ⟨_, hsend', rfl⟩⟩⟩⟩⟩⟩⟩⟩, rfl⟩⟩⟩⟩

/-- **A turn returns.** -/
theorem turn (N : Rule.Returns b config plan orders I toServer toClient)
    (R : Rule b config plan orders I toServer toClient)
    (hI : I g (config.clients + config.clients) h)
    (hnext : ∀ c ∈ (plan.drop h.fired).head?, h.tick < c.1)
    (htick : h.tick.toNat < max 1 config.maxTicks.toNat) :
    ∃ h', h.turn b config plan (sortSwitches config.profileSwitches) orders = .ok h' := by
  obtain ⟨tick, hadd, _⟩ := b.add_ok (x := h.tick) (y := 1#64) (by
    have := config.maxTicks.isLt
    show h.tick.toNat + 1 < 2 ^ 64
    omega)
  obtain ⟨g₀, hI₀⟩ := R.clock hI hnext htick hadd
  have hknown : ∀ s ∈ (sortSwitches config.profileSwitches).drop h.switched,
      s ∈ config.profileSwitches := fun s hs =>
    (List.mem_insertionSort _).mp (List.mem_of_mem_drop hs)
  obtain ⟨h₁, hswitch⟩ := N.switchProfiles R hI₀ hknown
  obtain ⟨⟨g₁, hI₁⟩, _, _⟩ := R.switchProfiles hI₀ hknown hswitch
  obtain ⟨h₂, hfire⟩ := N.fireCalls R hI₁ rfl
  obtain ⟨⟨g₂, hI₂⟩, _, _⟩ := R.fireCalls hI₁ rfl hfire
  have hlen := R.sized hI₂
  obtain ⟨h₃, hpump, g₃, hI₃⟩ := range_returns (J := fun k h => ∃ g, I g k h) (n := config.clients)
    (k := 0) (f := Harness.pumpAt b orders) (fun h i _ hlt hJ => by
      obtain ⟨g, hI⟩ := hJ
      obtain ⟨h', hr⟩ := N.pumpAt R hI (by omega)
      exact ⟨h', hr, (R.pumpAt hI hr).1⟩) ⟨g₂, hI₂⟩
  rw [Nat.zero_add] at hI₃
  obtain ⟨h₄, hpoll, _⟩ := range_returns (J := fun k h => ∃ g, I g (config.clients + k) h)
    (n := config.clients) (k := 0) (f := Harness.poll) (fun h i _ hlt hJ => by
      obtain ⟨g, hI⟩ := hJ
      have hsize := R.sized hI
      have hi : i < h.links.length := by omega
      obtain ⟨h', hr⟩ : ∃ h', h.poll i = .ok h' := ⟨_, bind_eq_ok.mpr ⟨_, index_ok hi, rfl⟩⟩
      exact ⟨h', hr, (R.pollAt hI hr).1⟩) ⟨g₃, hI₃⟩
  refine ⟨h₄, bind_eq_ok.mpr ⟨tick, hadd, bind_eq_ok.mpr ⟨h₁, hswitch, bind_eq_ok.mpr ⟨h₂, hfire,
    bind_eq_ok.mpr ⟨h₃, ?_, ?_⟩⟩⟩⟩⟩
  · rw [hlen.1, hlen.2, Nat.min_self, List.range_eq_range']
    exact hpump
  · rw [(R.sized hI₃).1, List.range_eq_range']
    exact hpoll

/-- **The main loop ends.** -/
theorem loop (N : Rule.Returns b config plan orders I toServer toClient)
    (R : Rule b config plan orders I toServer toClient)
    (hI : I g (config.clients + config.clients) h) (htick : h.tick = 0)
    (hnext : ∀ c ∈ (plan.drop h.fired).head?, h.tick < c.1) :
    ∃ r, Machine.loop (Harness.body b config plan (sortSwitches config.profileSwitches) orders)
      (config.maxTicks.toNat + 1) h = .ok r := by
  have hlap : ∀ h : Harness, ((∃ g, I g (config.clients + config.clients) h) ∧
      (∀ c ∈ (plan.drop h.fired).head?, h.tick < c.1) ∧
      h.tick.toNat < max 1 config.maxTicks.toNat) →
      Lap (Harness.body b config plan (sortSwitches config.profileSwitches) orders)
        (fun h => (∃ g, I g (config.clients + config.clients) h) ∧
          (∀ c ∈ (plan.drop h.fired).head?, h.tick < c.1) ∧
          h.tick.toNat < max 1 config.maxTicks.toNat)
        (fun h => config.maxTicks.toNat - h.tick.toNat) (fun x => ∃ r, x = .ok r) h := by
    rintro h ⟨⟨g, hI⟩, hnext, hlt⟩
    obtain ⟨h', hturn⟩ := N.turn R hI hnext hlt
    obtain ⟨hI', hadd, hnext'⟩ := R.turn hI hnext hlt hturn
    have hone : h'.tick.toNat = h.tick.toNat + 1 := Build.add_toNat hadd (by
      have := config.maxTicks.isLt
      show h.tick.toNat + 1 < 2 ^ 64
      omega)
    by_cases hdrained : h'.drained plan
    · refine .breaks (r := .ok h') ?_ ⟨_, rfl⟩
      rw [Harness.body, hturn, ok_bind, if_pos hdrained]
    · by_cases hlate : config.maxTicks ≤ h'.tick
      · refine .breaks (r := .error ⟨config.seed,
          didNotDrain config.maxTicks h'.fired config.calls⟩) ?_ ⟨_, rfl⟩
        rw [Harness.body, hturn, ok_bind, if_neg hdrained, if_pos hlate]
      · have hearly : h'.tick.toNat < config.maxTicks.toNat := not_le.mp hlate
        refine .goes ?_ ⟨hI', hnext', by omega⟩ (by omega)
        rw [Harness.body, hturn, ok_bind, if_neg hdrained, if_neg hlate]
  refine loop_ends hlap ⟨⟨g, hI⟩, hnext, ?_⟩ (by omega)
  rw [htick]
  exact Nat.lt_of_lt_of_le Nat.one_pos (Nat.le_max_left _ _)

end Rule.Returns

end Distrans.Workload
