import Distrans.Workload.Chaos

/-!
# What a turn of the harness does

The loops of `run_chaos`, taken apart once: whatever holds at the head of a turn and is kept by each
of its steps (a call, a delivery, a tick, new channels) holds at its end.

A `Rule` is such an invariant, over a ghost state of any type, which may change at each step; `k` is
how many of the clients have been ticked in this turn, and then, besides, how many have been polled.

* `Rule.turn` — **one turn keeps the invariant**;
* `Rule.loop` — where the main loop ends, it holds.
* `Rule.and` — two invariants are one.
-/

set_option autoImplicit false

namespace Distrans.Workload

open Machine

variable {b : Build} {config : ChaosConfig} {plan : List (U64 × Nat × Op)}
  {switches : List (U64 × FaultProfile)} {orders : Nat → Nat → Shuffle} {h h' : Harness} {i : Nat}
  {link link' : ClientLink} {server server' : Server} {shared shared' : Served}

namespace Harness

/-- After a step of the `i`-th client or server. -/
def put (h : Harness) (i : Nat) (link : ClientLink) (server : Server) (shared : Served) : Harness :=
  { h with links := h.links.set i link, servers := h.servers.set i server, shared }

/-- The `i`-th client, with its channels, and its server. -/
structure At (h : Harness) (i : Nat) (link : ClientLink) (server : Server) : Prop where
  link : h.links[i]? = some link
  server : h.servers[i]? = some server

theorem At.put (hat : h.At i link server) (link' : ClientLink) (server' : Server) (shared' : Served) :
    (h.put i link' server' shared').At i link' server' where
  link := List.getElem?_set_self (List.getElem?_eq_some_iff.mp hat.link).1
  server := List.getElem?_set_self (List.getElem?_eq_some_iff.mp hat.server).1

@[simp] theorem put_put : (h.put i link server shared).put i link' server' shared' =
    h.put i link' server' shared' := by
  simp only [put, List.set_set]

theorem At.put_self (hat : h.At i link server) : h.put i link server h.shared = h := by
  obtain ⟨hlink, rfl⟩ := List.getElem?_eq_some_iff.mp hat.link
  obtain ⟨hserver, rfl⟩ := List.getElem?_eq_some_iff.mp hat.server
  rw [Harness.put, List.set_getElem_self, List.set_getElem_self]

@[simp] theorem put_tick : (h.put i link server shared).tick = h.tick := rfl

@[simp] theorem put_shared : (h.put i link server shared).shared = shared := rfl

theorem index_inv {α : Type} {l : List α} {x : α} (h : index l i = .ok x) : l[i]? = some x := by
  unfold index at h
  split at h
  · rename_i y hy
    cases h
    exact hy
  · cases h

theorem at_of_lt (hl : i < h.links.length) (hs : i < h.servers.length) :
    ∃ link server, h.At i link server :=
  ⟨_, _, List.getElem?_eq_getElem hl, List.getElem?_eq_getElem hs⟩

end Harness

open Harness

/-- **An invariant of the harness**: `toServer` and `toClient` say what may arrive. -/
structure Rule {G : Type} (b : Build) (config : ChaosConfig) (plan : List (U64 × Nat × Op))
    (orders : Nat → Nat → Shuffle) (I : G → Nat → Harness → Prop)
    (toServer toClient : G → Nat → Datagram → Prop) : Prop where
  sized : ∀ {g k h}, I g k h →
    h.links.length = config.clients ∧ h.servers.length = config.clients
  clock : ∀ {g h tick}, I g (config.clients + config.clients) h →
    (∀ c ∈ (plan.drop h.fired).head?, h.tick < c.1) →
    h.tick.toNat < max 1 config.maxTicks.toNat → b.add h.tick 1 = .ok tick →
    ∃ g', I g' 0 { h with tick }
  relink : ∀ {g h i link server seed t profile c2s s2c}, I g 0 h → h.At i link server →
    (t, profile) ∈ config.profileSwitches → makeLink seed profile = .ok (c2s, s2c) →
    ∃ g', I g' 0 (h.put i { link with c2s, s2c } server h.shared)
  switched : ∀ {g h}, I g 0 h → I g 0 { h with switched := h.switched + 1 }
  call : ∀ {g h i link server t op client id out c2s}, I g 0 h → h.At i link server →
    plan[h.fired]? = some (t, i, op) → t ≤ h.tick →
    Workload.call b (Connection.transport b) link.client h.tick op = .ok (client, id, out) →
    sendAll b link.c2s out = .ok c2s →
    ∃ g', I g' 0 { h.put i { link with client, c2s } server h.shared with
      expectedCompletions := h.expectedCompletions ++ [id], fired := h.fired + 1 }
  arriveServer : ∀ {g h i link server c2s ds}, I g i h → h.At i link server →
    link.c2s.advance h.tick = .ok (c2s, ds) →
    I g i (h.put i { link with c2s } server h.shared) ∧ ∀ d ∈ ds, toServer g i d
  serve : ∀ {g h i link server d server' shared' out s2c}, I g i h → h.At i link server →
    toServer g i d →
    server.onDatagram (Connection.transport b) h.shared h.tick d = .ok (server', shared', out) →
    sendAll b link.s2c out = .ok s2c →
    ∃ g', I g' i (h.put i { link with s2c } server' shared') ∧ ∀ d, toServer g i d → toServer g' i d
  arriveClient : ∀ {g h i link server s2c ds}, I g i h → h.At i link server →
    link.s2c.advance h.tick = .ok (s2c, ds) →
    I g i (h.put i { link with s2c } server h.shared) ∧ ∀ d ∈ ds, toClient g i d
  hear : ∀ {g h i link server d client out c2s}, I g i h → h.At i link server → toClient g i d →
    link.client.onDatagram (Connection.transport b) h.tick d = .ok (client, out) →
    sendAll b link.c2s out = .ok c2s →
    ∃ g', I g' i (h.put i { link with client, c2s } server h.shared) ∧
      ∀ d, toClient g i d → toClient g' i d
  clientTick : ∀ {g h i link server client out c2s}, I g i h → h.At i link server →
    link.client.onTick b (Connection.transport b) h.tick
      ((orders h.tick.toNat i).order link.client.pending.entries) = .ok (client, out) →
    sendAll b link.c2s out = .ok c2s →
    ∃ g', I g' (i + 1) (h.put i { link with client, c2s } server h.shared)
  serverTick : ∀ {g h i link server server' out s2c}, I g (i + 1) h → h.At i link server →
    server.onTick (Connection.transport b) h.tick = .ok (server', out) →
    sendAll b link.s2c out = .ok s2c →
    ∃ g', I g' (i + 1) (h.put i { link with s2c } server' h.shared)
  poll : ∀ {g h i link server}, I g (config.clients + i) h → h.At i link server →
    ∃ g', I g' (config.clients + (i + 1)) { h.put i { link with
      client := link.client.pollCompleted.1.pollFailed.1 } server h.shared with
      callsFailed := h.callsFailed + link.client.failed.length }

namespace Rule

variable {G : Type} {I : G → Nat → Harness → Prop} {toServer toClient : G → Nat → Datagram → Prop}
  {g : G}

/-- A `for` loop over the first indices, each of which takes the ghost with it. -/
theorem range_kept {J : Nat → Harness → Prop} {f : Harness → Nat → Exec Harness} : ∀ {n k : Nat}
    {h h' : Harness}, (∀ h h' i, k ≤ i → i < k + n → J i h → f h i = .ok h' → J (i + 1) h') → J k h →
    (List.range' k n).foldlM f h = .ok h' → J (k + n) h'
  | 0, _, _, _, _, hJ, hr => by
    cases hr
    exact hJ
  | n + 1, k, h, h', hf, hJ, hr => by
    rw [List.range'_succ, List.foldlM_cons] at hr
    obtain ⟨h₁, h₁', hr⟩ := bind_eq_ok.mp hr
    have hJ₁ := hf h h₁ k (le_refl k) (by omega) hJ h₁'
    have := range_kept (fun h h' i hle hlt => hf h h' i (by omega) (by omega)) hJ₁ hr
    rwa [Nat.add_assoc, Nat.add_comm 1 n] at this

/-- New channels for one client. -/
theorem relinkAt (R : Rule b config plan orders I toServer toClient) {t : U64} {profile : FaultProfile}
    (hI : I g 0 h) (hmem : (t, profile) ∈ config.profileSwitches)
    (hr : h.relink b config profile i = .ok h') :
    (∃ g', I g' 0 h') ∧ h'.fired = h.fired ∧ h'.tick = h.tick := by
  obtain ⟨link, hlink, hr⟩ := bind_eq_ok.mp hr
  obtain ⟨seed, _, hr⟩ := bind_eq_ok.mp hr
  obtain ⟨offset, _, hr⟩ := bind_eq_ok.mp hr
  obtain ⟨⟨c2s, s2c⟩, hmake, hr⟩ := bind_eq_ok.mp hr
  cases hr
  have hlen := R.sized hI
  obtain ⟨link', server, hat⟩ : ∃ link server, h.At i link server := by
    have hlt := (List.getElem?_eq_some_iff.mp (index_inv hlink)).1
    exact at_of_lt hlt (by omega)
  obtain rfl : link = link' := Option.some.inj ((index_inv hlink).symm.trans hat.link)
  obtain ⟨g', hI'⟩ := R.relink hI hat hmem hmake
  refine ⟨⟨g', ?_⟩, rfl, rfl⟩
  have hserver : h.servers.set i server = h.servers := by
    obtain ⟨hs, rfl⟩ := List.getElem?_eq_some_iff.mp hat.server
    exact List.set_getElem_self hs
  rw [Harness.put, hserver] at hI'
  exact hI'

theorem switchProfiles (R : Rule b config plan orders I toServer toClient) :
    ∀ {due : List (U64 × FaultProfile)} {g : G} {h h' : Harness}, I g 0 h →
    (∀ s ∈ due, s ∈ config.profileSwitches) → h.switchProfiles b config due = .ok h' →
    (∃ g', I g' 0 h') ∧ h'.fired = h.fired ∧ h'.tick = h.tick
  | [], g, _, _, hI, _, hr => by
    cases hr
    exact ⟨⟨g, hI⟩, rfl, rfl⟩
  | (t, profile) :: due, g, h, h', hI, hdue, hr => by
    rw [Harness.switchProfiles] at hr
    split at hr
    · obtain ⟨h₁, hfold, hr⟩ := bind_eq_ok.mp hr
      rw [List.range_eq_range'] at hfold
      obtain ⟨⟨g₁, hI₁⟩, hfired, htick⟩ : (∃ g', I g' 0 h₁) ∧ h₁.fired = h.fired ∧ h₁.tick = h.tick := by
        refine range_kept (J := fun _ h₁ => (∃ g', I g' 0 h₁) ∧ h₁.fired = h.fired ∧
          h₁.tick = h.tick) (fun h₁ h₂ i _ _ hJ hone => ?_) ⟨⟨g, hI⟩, rfl, rfl⟩ hfold
        obtain ⟨⟨g₁, hI₁⟩, hfired, htick⟩ := hJ
        obtain ⟨hI₂, hfired', htick'⟩ := R.relinkAt hI₁ (hdue _ List.mem_cons_self) hone
        exact ⟨hI₂, hfired'.trans hfired, htick'.trans htick⟩
      obtain ⟨hI', hfired', htick'⟩ := switchProfiles R (R.switched hI₁)
        (fun s hs => hdue s (List.mem_cons_of_mem _ hs)) hr
      exact ⟨hI', hfired'.trans hfired, htick'.trans htick⟩
    · cases hr
      exact ⟨⟨g, hI⟩, rfl, rfl⟩

/-- The next call of the plan. -/
theorem callAt (R : Rule b config plan orders I toServer toClient) {t : U64} {op : Op}
    {client : RpcClient Connection} {id : U64} {out : List Datagram} {c2s : Channel} (hI : I g 0 h)
    (hat : h.At i link server) (hplan : plan[h.fired]? = some (t, i, op)) (ht : t ≤ h.tick)
    (hcall : Workload.call b (Connection.transport b) link.client h.tick op = .ok (client, id, out))
    (hsend : sendAll b link.c2s out = .ok c2s) : ∃ g', I g' 0 { h with
      links := h.links.set i { link with client, c2s }
      expectedCompletions := h.expectedCompletions ++ [id]
      fired := h.fired + 1 } := by
  obtain ⟨g', hI'⟩ := R.call hI hat hplan ht hcall hsend
  have hserver : h.servers.set i server = h.servers := by
    obtain ⟨hs, rfl⟩ := List.getElem?_eq_some_iff.mp hat.server
    exact List.set_getElem_self hs
  rw [Harness.put, hserver] at hI'
  exact ⟨g', hI'⟩

theorem fireCalls (R : Rule b config plan orders I toServer toClient) :
    ∀ {due : List (U64 × Nat × Op)} {g : G} {h h' : Harness}, I g 0 h → due = plan.drop h.fired →
    h.fireCalls b due = .ok h' → (∃ g', I g' 0 h') ∧ h'.tick = h.tick ∧
      ∀ c ∈ (plan.drop h'.fired).head?, h'.tick < c.1
  | [], g, h, h', hI, hdue, hr => by
    cases hr
    refine ⟨⟨g, hI⟩, rfl, ?_⟩
    rw [← hdue]
    rintro _ ⟨⟩
  | (t, i, op) :: due, g, h, h', hI, hdue, hr => by
    rw [Harness.fireCalls] at hr
    split at hr
    · rename_i ht
      obtain ⟨link, hlink, hr⟩ := bind_eq_ok.mp hr
      obtain ⟨⟨client, id, out⟩, hcall, hr⟩ := bind_eq_ok.mp hr
      obtain ⟨c2s, hsend, hr⟩ := bind_eq_ok.mp hr
      have hlen := R.sized hI
      obtain ⟨link', server, hat⟩ : ∃ link server, h.At i link server := by
        have hlt := (List.getElem?_eq_some_iff.mp (index_inv hlink)).1
        exact at_of_lt hlt (by omega)
      obtain rfl : link = link' := Option.some.inj ((index_inv hlink).symm.trans hat.link)
      have hplan : plan[h.fired]? = some (t, i, op) := by
        rw [← List.head?_drop, ← hdue]
        rfl
      obtain ⟨g₁, hI₁⟩ := R.callAt hI hat hplan ht hcall hsend
      have hdrop : due = plan.drop (h.fired + 1) := by
        rw [← List.drop_drop, ← hdue]
        rfl
      have hrest := fireCalls R hI₁ hdrop hr
      exact hrest
    · rename_i ht
      cases hr
      refine ⟨⟨g, hI⟩, rfl, ?_⟩
      rw [← hdue]
      rintro _ ⟨⟩
      exact not_le.mp ht

/-- What has arrived at the server is served. -/
theorem serveAll (R : Rule b config plan orders I toServer toClient) : ∀ {ds : List Datagram} {g : G}
    {h : Harness} {link : ClientLink} {server server' : Server} {shared' : Served} {s2c : Channel},
    I g i h → h.At i link server → (∀ d ∈ ds, toServer g i d) →
    Harness.serve b h.tick ds server h.shared link.s2c = .ok (server', shared', s2c) →
    ∃ g', I g' i (h.put i { link with s2c } server' shared')
  | [], g, h, link, server, _, _, _, hI, hat, _, hr => by
    cases hr
    refine ⟨g, ?_⟩
    rw [hat.put_self]
    exact hI
  | d :: ds, g, h, link, server, server', shared', s2c, hI, hat, hds, hr => by
    obtain ⟨⟨server₁, shared₁, out⟩, hone, hr⟩ := bind_eq_ok.mp hr
    obtain ⟨s2c₁, hsend, hr⟩ := bind_eq_ok.mp hr
    obtain ⟨g₁, hI₁, hkept⟩ := R.serve hI hat (hds d List.mem_cons_self) hone hsend
    obtain ⟨g₂, hI₂⟩ := serveAll R hI₁ (hat.put _ _ _)
      (fun d hd => hkept d (hds d (List.mem_cons_of_mem _ hd))) hr
    rw [put_put] at hI₂
    exact ⟨g₂, hI₂⟩

/-- What has arrived at the client is heard. -/
theorem hearAll (R : Rule b config plan orders I toServer toClient) : ∀ {ds : List Datagram} {g : G}
    {h : Harness} {link : ClientLink} {server : Server} {client : RpcClient Connection}
    {c2s : Channel}, I g i h → h.At i link server → (∀ d ∈ ds, toClient g i d) →
    Harness.hear b h.tick ds link.client link.c2s = .ok (client, c2s) →
    ∃ g', I g' i (h.put i { link with client, c2s } server h.shared)
  | [], g, h, link, server, _, _, hI, hat, _, hr => by
    cases hr
    refine ⟨g, ?_⟩
    rw [hat.put_self]
    exact hI
  | d :: ds, g, h, link, server, client, c2s, hI, hat, hds, hr => by
    obtain ⟨⟨client₁, out⟩, hone, hr⟩ := bind_eq_ok.mp hr
    obtain ⟨c2s₁, hsend, hr⟩ := bind_eq_ok.mp hr
    obtain ⟨g₁, hI₁, hkept⟩ := R.hear hI hat (hds d List.mem_cons_self) hone hsend
    obtain ⟨g₂, hI₂⟩ := hearAll R hI₁ (hat.put _ _ _)
      (fun d hd => hkept d (hds d (List.mem_cons_of_mem _ hd))) hr
    rw [put_put] at hI₂
    exact ⟨g₂, hI₂⟩

/-- **One tick of a client and its server.** -/
theorem pumpAt (R : Rule b config plan orders I toServer toClient) (hI : I g i h)
    (hr : h.pumpAt b orders i = .ok h') :
    (∃ g', I g' (i + 1) h') ∧ h'.fired = h.fired ∧ h'.tick = h.tick := by
  obtain ⟨link, hlink, hr⟩ := bind_eq_ok.mp hr
  obtain ⟨server, hserver, hr⟩ := bind_eq_ok.mp hr
  obtain ⟨⟨link', server', shared'⟩, hpump, hr⟩ := bind_eq_ok.mp hr
  cases hr
  have hat : h.At i link server := ⟨index_inv hlink, index_inv hserver⟩
  obtain ⟨⟨c2s, ds⟩, hadv, hpump⟩ := bind_eq_ok.mp hpump
  obtain ⟨⟨server₁, shared₁, s2c⟩, hserve, hpump⟩ := bind_eq_ok.mp hpump
  obtain ⟨⟨s2c', ds'⟩, hadv', hpump⟩ := bind_eq_ok.mp hpump
  obtain ⟨⟨client, c2s'⟩, hhear, hpump⟩ := bind_eq_ok.mp hpump
  obtain ⟨⟨client', out⟩, htick, hpump⟩ := bind_eq_ok.mp hpump
  obtain ⟨c2s'', hsend, hpump⟩ := bind_eq_ok.mp hpump
  obtain ⟨⟨server₂, out'⟩, htick', hpump⟩ := bind_eq_ok.mp hpump
  obtain ⟨s2c'', hsend', hpump⟩ := bind_eq_ok.mp hpump
  cases hpump
  obtain ⟨hI₁, hds⟩ := R.arriveServer hI hat hadv
  have hat₁ := hat.put { link with c2s } server h.shared
  obtain ⟨g₂, hI₂⟩ := R.serveAll hI₁ hat₁ hds hserve
  have hat₂ := hat₁.put { link with c2s, s2c } server₁ shared'
  obtain ⟨hI₃, hds'⟩ := R.arriveClient hI₂ hat₂ hadv'
  have hat₃ := hat₂.put { link with c2s, s2c := s2c' } server₁ shared'
  obtain ⟨g₄, hI₄⟩ := R.hearAll hI₃ hat₃ hds' hhear
  have hat₄ := hat₃.put ⟨client, c2s', s2c'⟩ server₁ shared'
  obtain ⟨g₅, hI₅⟩ := R.clientTick hI₄ hat₄ htick hsend
  have hat₅ := hat₄.put ⟨client', c2s'', s2c'⟩ server₁ shared'
  obtain ⟨g₆, hI₆⟩ := R.serverTick hI₅ hat₅ htick' hsend'
  refine ⟨⟨g₆, ?_⟩, rfl, rfl⟩
  simp only [put_put, put_shared] at hI₆
  exact hI₆

theorem pollAt (R : Rule b config plan orders I toServer toClient) (hI : I g (config.clients + i) h)
    (hr : h.poll i = .ok h') :
    (∃ g', I g' (config.clients + (i + 1)) h') ∧ h'.fired = h.fired ∧ h'.tick = h.tick := by
  obtain ⟨link, hlink, hr⟩ := bind_eq_ok.mp hr
  cases hr
  have hlen := R.sized hI
  obtain ⟨link', server, hat⟩ : ∃ link server, h.At i link server := by
    have hlt := (List.getElem?_eq_some_iff.mp (index_inv hlink)).1
    exact at_of_lt hlt (by omega)
  obtain rfl : link = link' := Option.some.inj ((index_inv hlink).symm.trans hat.link)
  obtain ⟨g', hI'⟩ := R.poll hI hat
  have hserver : h.servers.set i server = h.servers := by
    obtain ⟨hs, rfl⟩ := List.getElem?_eq_some_iff.mp hat.server
    exact List.set_getElem_self hs
  rw [Harness.put, hserver] at hI'
  exact ⟨⟨g', hI'⟩, rfl, rfl⟩

/-- **One turn keeps the invariant**, and makes every call that is due. -/
theorem turn (R : Rule b config plan orders I toServer toClient)
    (hI : I g (config.clients + config.clients) h)
    (hnext : ∀ c ∈ (plan.drop h.fired).head?, h.tick < c.1)
    (htick : h.tick.toNat < max 1 config.maxTicks.toNat)
    (hr : h.turn b config plan (sortSwitches config.profileSwitches) orders = .ok h') :
    (∃ g', I g' (config.clients + config.clients) h') ∧ b.add h.tick 1 = .ok h'.tick ∧
      ∀ c ∈ (plan.drop h'.fired).head?, h'.tick < c.1 := by
  obtain ⟨tick, hadd, hr⟩ := bind_eq_ok.mp hr
  obtain ⟨h₁, hswitch, hr⟩ := bind_eq_ok.mp hr
  obtain ⟨h₂, hfire, hr⟩ := bind_eq_ok.mp hr
  obtain ⟨h₃, hpump, hr⟩ := bind_eq_ok.mp hr
  obtain ⟨g₀, hI₀⟩ := R.clock hI hnext htick hadd
  have hknown : ∀ s ∈ (sortSwitches config.profileSwitches).drop h.switched,
      s ∈ config.profileSwitches := fun s hs =>
    (List.mem_insertionSort _).mp (List.mem_of_mem_drop hs)
  obtain ⟨⟨g₁, hI₁⟩, hfired₁, htick₁⟩ := R.switchProfiles hI₀ hknown hswitch
  obtain ⟨⟨g₂, hI₂⟩, htick₂, hdue⟩ := R.fireCalls hI₁ (by rw [hfired₁]) hfire
  have hlen := R.sized hI₂
  rw [hlen.1, hlen.2, Nat.min_self, List.range_eq_range'] at hpump
  obtain ⟨⟨g₃, hI₃⟩, hfired₃, htick₃⟩ : (∃ g, I g (0 + config.clients) h₃) ∧
      h₃.fired = h₂.fired ∧ h₃.tick = h₂.tick := by
    refine range_kept (J := fun k h₃ => (∃ g, I g k h₃) ∧ h₃.fired = h₂.fired ∧ h₃.tick = h₂.tick)
      (fun h h' i _ _ hJ hone => ?_) ⟨⟨g₂, hI₂⟩, rfl, rfl⟩ hpump
    obtain ⟨⟨g, hI⟩, hfired, htick⟩ := hJ
    obtain ⟨hI', hfired', htick'⟩ := R.pumpAt hI hone
    exact ⟨hI', hfired'.trans hfired, htick'.trans htick⟩
  rw [Nat.zero_add] at hI₃
  rw [(R.sized hI₃).1, List.range_eq_range'] at hr
  obtain ⟨hI', hfired', htick'⟩ : (∃ g, I g (config.clients + (0 + config.clients)) h') ∧
      h'.fired = h₃.fired ∧ h'.tick = h₃.tick := by
    refine range_kept (J := fun k h' => (∃ g, I g (config.clients + k) h') ∧ h'.fired = h₃.fired ∧
      h'.tick = h₃.tick) (fun h h' i _ _ hJ hone => ?_) ⟨⟨g₃, hI₃⟩, rfl, rfl⟩ hr
    obtain ⟨⟨g, hI⟩, hfired, htick⟩ := hJ
    obtain ⟨hI', hfired', htick'⟩ := R.pollAt hI hone
    exact ⟨hI', hfired'.trans hfired, htick'.trans htick⟩
  rw [Nat.zero_add] at hI'
  have hnow : h'.tick = tick := htick'.trans (htick₃.trans (htick₂.trans htick₁))
  refine ⟨hI', ?_, ?_⟩
  · rw [hnow]
    exact hadd
  · rw [hfired', hfired₃, htick', htick₃]
    exact hdue

/-- How the main loop ends. -/
inductive Ends (b : Build) (config : ChaosConfig) (plan : List (U64 × Nat × Op)) (h : Harness) :
    Except ChaosFailure Harness → Prop
  | drained : h.drained plan → Ends b config plan h (.ok h)
  | late : ¬ h.drained plan → config.maxTicks ≤ h.tick →
      Ends b config plan h (.error ⟨config.seed, didNotDrain config.maxTicks h.fired config.calls⟩)

/-- **The main loop**: it ends after a turn, and the invariant holds then. -/
theorem loop (R : Rule b config plan orders I toServer toClient) {fuel : Nat}
    {r : Except ChaosFailure Harness} (hI : I g (config.clients + config.clients) h)
    (htick : h.tick = 0)
    (hnext : ∀ c ∈ (plan.drop h.fired).head?, h.tick < c.1)
    (hr : Machine.loop (Harness.body b config plan (sortSwitches config.profileSwitches) orders)
      fuel h = .ok r) : ∃ g' h', I g' (config.clients + config.clients) h' ∧ Ends b config plan h' r ∧
        h'.tick.toNat ≤ max 1 config.maxTicks.toNat ∧
        ∀ c ∈ (plan.drop h'.fired).head?, h'.tick < c.1 := by
  obtain ⟨h₁, hhead, hbreak⟩ := loop_breaks hr
  have hinv : (∃ g, I g (config.clients + config.clients) h₁) ∧
      (∀ c ∈ (plan.drop h₁.fired).head?, h₁.tick < c.1) ∧
      h₁.tick.toNat < max 1 config.maxTicks.toNat := by
    refine hhead.keeps (I := fun h₁ => (∃ g, I g (config.clients + config.clients) h₁) ∧
      (∀ c ∈ (plan.drop h₁.fired).head?, h₁.tick < c.1) ∧
      h₁.tick.toNat < max 1 config.maxTicks.toNat) ⟨⟨g, hI⟩, hnext, ?_⟩ fun h₁ h₂ hinv hbody => ?_
    · rw [htick]
      exact Nat.lt_of_lt_of_le Nat.one_pos (Nat.le_max_left _ _)
    · obtain ⟨⟨g₁, hI₁⟩, hnext₁, hlt⟩ := hinv
      obtain ⟨h₃, hturn, hbody⟩ := bind_eq_ok.mp hbody
      obtain ⟨hI₃, _, hnext₃⟩ := R.turn hI₁ hnext₁ hlt hturn
      split at hbody
      · cases hbody
      · split at hbody
        · cases hbody
        · rename_i hearly
          cases hbody
          have hlt₂ : h₂.tick.toNat < config.maxTicks.toNat := not_le.mp hearly
          exact ⟨hI₃, hnext₃, Nat.lt_of_lt_of_le hlt₂ (Nat.le_max_right _ _)⟩
  obtain ⟨⟨g₁, hI₁⟩, hnext₁, hlt⟩ := hinv
  obtain ⟨h₂, hturn, hbreak⟩ := bind_eq_ok.mp hbreak
  obtain ⟨⟨g₂, hI₂⟩, hadd, hnext₂⟩ := R.turn hI₁ hnext₁ hlt hturn
  have hle : h₂.tick.toNat ≤ max 1 config.maxTicks.toNat := by
    have hone : h₂.tick.toNat ≤ h₁.tick.toNat + 1 := by
      rw [Build.fit_toNat hadd]
      exact Nat.mod_le _ _
    omega
  split at hbreak
  · rename_i hdrained
    cases hbreak
    exact ⟨g₂, h₂, hI₂, .drained hdrained, hle, hnext₂⟩
  · rename_i hdrained
    split at hbreak
    · rename_i hlate
      cases hbreak
      exact ⟨g₂, h₂, hI₂, .late hdrained hlate, hle, hnext₂⟩
    · cases hbreak

/-- **Two invariants at once.** -/
theorem and {G' : Type} {J : G' → Nat → Harness → Prop}
    {toServer' toClient' : G' → Nat → Datagram → Prop}
    (R : Rule b config plan orders I toServer toClient)
    (S : Rule b config plan orders J toServer' toClient') :
    Rule b config plan orders (fun (g : G × G') k h => I g.1 k h ∧ J g.2 k h)
      (fun g i d => toServer g.1 i d ∧ toServer' g.2 i d)
      (fun g i d => toClient g.1 i d ∧ toClient' g.2 i d) where
  sized hI := R.sized hI.1
  clock hI hnext hlt hadd := by
    obtain ⟨g, h₁⟩ := R.clock hI.1 hnext hlt hadd
    obtain ⟨g', h₂⟩ := S.clock hI.2 hnext hlt hadd
    exact ⟨(g, g'), h₁, h₂⟩
  relink hI hat hmem hmake := by
    obtain ⟨g, h₁⟩ := R.relink hI.1 hat hmem hmake
    obtain ⟨g', h₂⟩ := S.relink hI.2 hat hmem hmake
    exact ⟨(g, g'), h₁, h₂⟩
  switched hI := ⟨R.switched hI.1, S.switched hI.2⟩
  call hI hat hdue hle hr hsend := by
    obtain ⟨g, h₁⟩ := R.call hI.1 hat hdue hle hr hsend
    obtain ⟨g', h₂⟩ := S.call hI.2 hat hdue hle hr hsend
    exact ⟨(g, g'), h₁, h₂⟩
  arriveServer hI hat hr := by
    obtain ⟨h₁, hd₁⟩ := R.arriveServer hI.1 hat hr
    obtain ⟨h₂, hd₂⟩ := S.arriveServer hI.2 hat hr
    exact ⟨⟨h₁, h₂⟩, fun d hd => ⟨hd₁ d hd, hd₂ d hd⟩⟩
  serve hI hat hd hr hsend := by
    obtain ⟨g, h₁, hk₁⟩ := R.serve hI.1 hat hd.1 hr hsend
    obtain ⟨g', h₂, hk₂⟩ := S.serve hI.2 hat hd.2 hr hsend
    exact ⟨(g, g'), ⟨h₁, h₂⟩, fun d hd => ⟨hk₁ d hd.1, hk₂ d hd.2⟩⟩
  arriveClient hI hat hr := by
    obtain ⟨h₁, hd₁⟩ := R.arriveClient hI.1 hat hr
    obtain ⟨h₂, hd₂⟩ := S.arriveClient hI.2 hat hr
    exact ⟨⟨h₁, h₂⟩, fun d hd => ⟨hd₁ d hd, hd₂ d hd⟩⟩
  hear hI hat hd hr hsend := by
    obtain ⟨g, h₁, hk₁⟩ := R.hear hI.1 hat hd.1 hr hsend
    obtain ⟨g', h₂, hk₂⟩ := S.hear hI.2 hat hd.2 hr hsend
    exact ⟨(g, g'), ⟨h₁, h₂⟩, fun d hd => ⟨hk₁ d hd.1, hk₂ d hd.2⟩⟩
  clientTick hI hat hr hsend := by
    obtain ⟨g, h₁⟩ := R.clientTick hI.1 hat hr hsend
    obtain ⟨g', h₂⟩ := S.clientTick hI.2 hat hr hsend
    exact ⟨(g, g'), h₁, h₂⟩
  serverTick hI hat hr hsend := by
    obtain ⟨g, h₁⟩ := R.serverTick hI.1 hat hr hsend
    obtain ⟨g', h₂⟩ := S.serverTick hI.2 hat hr hsend
    exact ⟨(g, g'), h₁, h₂⟩
  poll hI hat := by
    obtain ⟨g, h₁⟩ := R.poll hI.1 hat
    obtain ⟨g', h₂⟩ := S.poll hI.2 hat
    exact ⟨(g, g'), h₁, h₂⟩

end Rule

end Distrans.Workload
