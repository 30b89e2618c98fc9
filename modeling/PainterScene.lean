import PainterScene.Main
import PainterScene.Overlap.Depth
import PainterScene.Scalar.Rational
import PainterScene.Scalar.Reading
import PainterScene.Proofs.Cuts
import PainterScene.Proofs.Scan
import PainterScene.Proofs.Growth
import PainterScene.Proofs.Lineage
import PainterScene.Proofs.Plane
import PainterScene.Proofs.ConvexPolygon
import PainterScene.Proofs.Clipping
import PainterScene.Proofs.ScreenTriangles
import PainterScene.Proofs.Crossing
import PainterScene.Proofs.Fixpoint
import PainterScene.Proofs.Reprojection
import PainterScene.Proofs.Flattening
import PainterScene.Proofs.Topology
import PainterScene.Proofs.PaintOrder
import PainterScene.Proofs.SplitWeight
import PainterScene.Proofs.Painting
import PainterScene.Proofs.Visits
import PainterScene.Proofs.Placement
import PainterScene.Proofs.Drawability
import PainterScene.Proofs.Isolation
import PainterScene.Proofs.Locality
import PainterScene.Proofs.Accesses
import PainterScene.Proofs.Partition
import PainterScene.Proofs.PairTiling
import PainterScene.Proofs.Rejections
import PainterScene.Proofs.Continuity
import PainterScene.Proofs.InPlace
import PainterScene.Proofs.GridEdges
import PainterScene.Proofs.Wireframe
import PainterScene.Proofs.Corners
import PainterScene.Proofs.Intersection
import PainterScene.Proofs.Subtraction
import PainterScene.Proofs.DepthSymmetry
import PainterScene.Proofs.DepthRange
import PainterScene.Proofs.Interpolation
import PainterScene.Proofs.SplitSymmetry
import PainterScene.Proofs.CellMeans
import PainterScene.Proofs.HeightGrid
import PainterScene.Proofs.Itemwise
import PainterScene.Proofs.EdgeClaims
import PainterScene.Proofs.FloatDistances
import PainterScene.Proofs.Merging
