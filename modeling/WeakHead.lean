import WeakHead.Main
import WeakHead.Proofs.Adequacy
import WeakHead.Proofs.AlphaEquality
import WeakHead.Proofs.BinderNames.Supply
import WeakHead.Proofs.Bracketed
import WeakHead.Proofs.Heap.Budget
import WeakHead.Proofs.Heap.Composition
import WeakHead.Proofs.Heap.Isomorphism
import WeakHead.Proofs.Heap.Mirroring
import WeakHead.Proofs.Heap.Raising
import WeakHead.Proofs.Heap.Renumbering
import WeakHead.Proofs.Heap.Separation
import WeakHead.Proofs.Heap.Sharing
import WeakHead.Proofs.Heap.Spine
import WeakHead.Proofs.Heap.Termination
import WeakHead.Proofs.Heap.Transparency
import WeakHead.Proofs.Session.Continuation
import WeakHead.Proofs.Strategy
import WeakHead.Proofs.Term.Descent
import WeakHead.Proofs.Term.Viability
import WeakHead.Proofs.Token.Cutting
import WeakHead.Text.Minified
