import PlasmaField.Field.Tangent
import PlasmaField.Parameters.Document
import PlasmaField.Proofs.Delaunay.Hull
import PlasmaField.Proofs.Scattered.Location
import PlasmaField.Proofs.Scattered.Search
import PlasmaField.Proofs.Spline.Smooth
import PlasmaField.Proofs.Spline.Tensor
import PlasmaField.Proofs.Elementary
import PlasmaField.Proofs.Harmonics
import PlasmaField.Proofs.Equilibrium.Coefficients
import PlasmaField.Proofs.Equilibrium.Synthesis
import PlasmaField.Proofs.Scattered.Reproduction
import PlasmaField.Proofs.Spline.Gradient
import PlasmaField.Proofs.Equilibrium.Flux
import PlasmaField.Proofs.Equilibrium.FluxGradient
import PlasmaField.Proofs.Multilinear
import PlasmaField.Proofs.Delaunay.Embedding
import PlasmaField.Proofs.Equilibrium.Regridded
import PlasmaField.Proofs.Scattered.Embedding
import PlasmaField.Proofs.Field.Tangent
import PlasmaField.Proofs.Equilibrium.ToroidalBound
import PlasmaField.Proofs.Equilibrium.Nodes
import PlasmaField.Proofs.Equilibrium.Periodic
import PlasmaField.Proofs.Binary64.Rounding
import PlasmaField.Proofs.Binary64.Remainder
import PlasmaField.Proofs.Equilibrium.ToroidalAxis
import PlasmaField.Proofs.Dual.Program
import PlasmaField.Proofs.LineCurrent
import PlasmaField.Proofs.Equilibrium.Regauged
import PlasmaField.Proofs.Field.Degeneracy
import PlasmaField.Proofs.Field.Damping
import PlasmaField.Proofs.Tridiagonal.Bands
import PlasmaField.Proofs.Multilinear.Interpolation
import PlasmaField.Proofs.Delaunay.Similarity
import PlasmaField.Proofs.Scattered.Merging
import PlasmaField.Proofs.Spline.Transpose
import PlasmaField.Proofs.Spline.Bilinear
import PlasmaField.Proofs.LineCurrent.FourCoils
import PlasmaField.Proofs.EdgeDamping
import PlasmaField.Proofs.Equilibrium.Shapes
import PlasmaField.Proofs.Equilibrium.AbsentTerms
import PlasmaField.Proofs.Equilibrium.SingleSlice
import PlasmaField.Proofs.Boundary.Containment
import PlasmaField.Proofs.Equilibrium.Limiter
import PlasmaField.Proofs.Field.Construction
import PlasmaField.Proofs.Parameters.Members
import PlasmaField.Proofs.Field.Overlap
import PlasmaField.Proofs.Binary64.Natural
import PlasmaField.Proofs.Equilibrium.Counts
import PlasmaField.Proofs.Equilibrium.HalfGrid
import PlasmaField.Proofs.Delaunay.Simplicial
