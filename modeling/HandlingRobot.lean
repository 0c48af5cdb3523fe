import HandlingRobot.Uart.Relay
import HandlingRobot.Drive.MainLoop
import HandlingRobot.Servo.Handshake
import HandlingRobot.Tour.AntRoutes
import HandlingRobot.Tour.Targets
import HandlingRobot.Tour.Legs
import HandlingRobot.Search.AstarCorrect
import HandlingRobot.Vision.Corners
import HandlingRobot.Vision.Pictures
import HandlingRobot.Uart.Category
import HandlingRobot.Library.FirstMin
import HandlingRobot.Tour.BestTour
import HandlingRobot.Tour.Pheromone
import HandlingRobot.Search.NoTrans
import HandlingRobot.Search.Accesses
import HandlingRobot.Tour.Detour
import HandlingRobot.Tour.Greedy
import HandlingRobot.Tour.PathStore
import HandlingRobot.Library.TemplateSearch
import HandlingRobot.Vision.A4
import HandlingRobot.Vision.FindPic
import HandlingRobot.Vision.Repeat
import HandlingRobot.Search.OpenRuns
import HandlingRobot.Library.LinkedQueue
import HandlingRobot.Vision.Queues
import HandlingRobot.Vision.Similarity
import HandlingRobot.Vision.Reads
import HandlingRobot.Library.BestSplit
import HandlingRobot.Vision.Otsu
import HandlingRobot.Vision.Tables
import HandlingRobot.Vision.PicPick
import HandlingRobot.Vision.StaleBorder
import HandlingRobot.Tour.FirstStop
import HandlingRobot.Search.Buffers
import HandlingRobot.Library.InOrder
import HandlingRobot.Library.Patch
import HandlingRobot.Library.Reflection
import HandlingRobot.Tour.DropOff
import HandlingRobot.Tour.Waypoints
import HandlingRobot.Uart.Bins
import HandlingRobot.Uart.Positions
import HandlingRobot.Vision.Center
import HandlingRobot.Vision.Coarse
import HandlingRobot.Vision.Raster
import HandlingRobot.Drive.Icm
import HandlingRobot.Drive.Yaw
import HandlingRobot.Library.Decimal
import HandlingRobot.Tour.Selection
import HandlingRobot.Uart.PutFloat
import HandlingRobot.Drive.Approach
import HandlingRobot.Drive.Mission
import HandlingRobot.Menu.Flash
import HandlingRobot.Menu.Pages
import HandlingRobot.Vision.Fine
import HandlingRobot.Drive.Trip
import HandlingRobot.Servo.Arm
import HandlingRobot.Uart.Camera
import HandlingRobot.Drive.Patrol
import HandlingRobot.Library.QueueHeap
import HandlingRobot.Vision.Leak
import HandlingRobot.Drive.Sighting
