import OpenVariants.Main
import OpenVariants.Session
import OpenVariants.Proofs.Level
import OpenVariants.Proofs.Heap
import OpenVariants.Proofs.Key
import OpenVariants.Proofs.Run
import OpenVariants.Proofs.Form
import OpenVariants.Proofs.Client
import OpenVariants.Proofs.Canonical
import OpenVariants.Proofs.Declared
import OpenVariants.Proofs.Holder
import OpenVariants.Proofs.Construction
import OpenVariants.Proofs.Shape
import OpenVariants.Proofs.Structural
import OpenVariants.Proofs.Agree
import OpenVariants.Proofs.Stores
import OpenVariants.Proofs.Reach
import OpenVariants.Proofs.Plan
import OpenVariants.Proofs.Pure
import OpenVariants.Proofs.Table
import OpenVariants.Proofs.Memoized
import OpenVariants.Proofs.Transparency
import OpenVariants.Proofs.Entries
import OpenVariants.Proofs.Use
import OpenVariants.Proofs.FiniteMap
import OpenVariants.Proofs.Search
import OpenVariants.Proofs.Retention
import OpenVariants.Proofs.Totality
import OpenVariants.Proofs.Alike
import OpenVariants.Proofs.Hand
import OpenVariants.Proofs.Lockstep
import OpenVariants.Proofs.Bodies
import OpenVariants.Proofs.Calls
import OpenVariants.Proofs.Parts
import OpenVariants.Proofs.Commands
import OpenVariants.Proofs.Settled
import OpenVariants.Proofs.Sweeps
import OpenVariants.Proofs.Answers
import OpenVariants.Proofs.Moments
import OpenVariants.Proofs.Depth
import OpenVariants.Proofs.Lasting
import OpenVariants.Proofs.Reentrancy
import OpenVariants.Proofs.Conduct
import OpenVariants.Proofs.Likeness
import OpenVariants.Proofs.Extension
import OpenVariants.Proofs.Limits
import OpenVariants.Proofs.Living
import OpenVariants.Proofs.Lineage
import OpenVariants.Proofs.Provisional
import OpenVariants.Proofs.Cycles
import OpenVariants.Proofs.Provenance
import OpenVariants.Proofs.Membership
import OpenVariants.Proofs.Singletons
import OpenVariants.Proofs.Course
import OpenVariants.Proofs.Finality
import OpenVariants.Proofs.Boxing
import OpenVariants.Proofs.Precedence
import OpenVariants.Proofs.Absorption
import OpenVariants.Proofs.Deference
import OpenVariants.Proofs.Descent
import OpenVariants.Proofs.Fields
import OpenVariants.Proofs.Matching
import OpenVariants.Proofs.Relation
import OpenVariants.Proofs.Unifying
import OpenVariants.Proofs.Selection
import OpenVariants.Proofs.Validity
import OpenVariants.Proofs.Rebuilding
import OpenVariants.Proofs.Purging
import OpenVariants.Proofs.Cascade
import OpenVariants.Proofs.Garbage
import OpenVariants.Proofs.Members
import OpenVariants.Proofs.Definable
import OpenVariants.Proofs.Ids
import OpenVariants.Proofs.Release
import OpenVariants.Proofs.Lists
import OpenVariants.Proofs.Concatenation
import OpenVariants.Proofs.Unresolved
